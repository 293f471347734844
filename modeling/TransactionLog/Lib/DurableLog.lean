import Mathlib.Data.List.Infix

/-!
# A durable log

The log that a client of one writer at a time sees.  Entries are appended one by one, each
at its offset.  When the log is opened again, after a crash or not, it goes on with a part
of its entries from the first on, and all those that were acknowledged are in it: those
that were there at the last successful synchronization or opening.

A writer takes entries up to a limit, the next multiple of the `capacity`, and less than
`bound` in all.  After a failed flush or synchronization it takes none.

`acknowledged_kept` is what a client may rely on.
-/

namespace Lib

variable {α : Type}

/-- What the log may take where, and how much. -/
structure LogSpec (α : Type) where
  admits : Nat → α → Prop
  capacity : Nat
  bound : Nat

inductive WriterMode where
  | opened
  | failed
  | finalized
  deriving DecidableEq, Repr

structure LogWriter where
  limit : Nat
  mode : WriterMode
  deriving DecidableEq, Repr

/-- The entries, how many of them are acknowledged, and the open writer. -/
structure DurableLog (α : Type) where
  entries : List α
  acked : Nat
  writer : Option LogWriter

/-- An operation with its answer: a failure has no number. -/
inductive LogEvent (α : Type) where
  /-- Answered with the offset of the entry. -/
  | append (a : α) (offset : Option Nat)
  | flush (ok : Bool)
  | sync (ok : Bool)
  /-- Answered with the number of entries. -/
  | finalize (count : Option Nat)
  /-- Answered with the number of entries that are there. -/
  | openLog (count : Option Nat)
  /-- The writer is dropped, or lost in a crash. -/
  | close
  deriving DecidableEq

namespace DurableLog

def empty : DurableLog α := ⟨[], 0, none⟩

/-- The writer is open. -/
def Usable (l : DurableLog α) (w : LogWriter) : Prop := l.writer = some w ∧ w.mode = .opened

def Accepts (S : LogSpec α) (l : DurableLog α) (a : α) : Prop :=
  ∃ w, l.Usable w ∧ l.entries.length < w.limit ∧ l.entries.length + 1 < S.bound ∧
    S.admits l.entries.length a

/-- The writer is full, and all that is in the log is acknowledged. -/
def Final (l : DurableLog α) : Prop :=
  ∃ w, l.Usable w ∧ l.entries.length = w.limit ∧ l.acked = l.entries.length

/-- An open writer fails. -/
def fail (l : DurableLog α) : DurableLog α :=
  { l with writer := l.writer.map fun w => if w.mode = .opened then { w with mode := .failed } else w }

def finalized (l : DurableLog α) : DurableLog α :=
  { l with writer := l.writer.map fun w => { w with mode := .finalized } }

inductive Step (S : LogSpec α) (l : DurableLog α) : LogEvent α → DurableLog α → Prop where
  | accepted {a : α} (accepts : l.Accepts S a) :
      Step S l (.append a (some l.entries.length)) { l with entries := l.entries ++ [a] }
  | refused {a : α} (accepts : ¬ l.Accepts S a) : Step S l (.append a none) l
  | flushed {w : LogWriter} (usable : l.Usable w) : Step S l (.flush true) l
  | unflushed : Step S l (.flush false) l.fail
  | synced {w : LogWriter} (usable : l.Usable w) :
      Step S l (.sync true) { l with acked := l.entries.length }
  | unsynced : Step S l (.sync false) l.fail
  | finalized (final : l.Final) : Step S l (.finalize (some l.entries.length)) l.finalized
  | unfinalized (final : ¬ l.Final) : Step S l (.finalize none) l
  | opened {k : Nat} (acked : l.acked ≤ k) (le : k ≤ l.entries.length) :
      Step S l (.openLog (some k))
        ⟨l.entries.take k, k, some ⟨(k / S.capacity + 1) * S.capacity, .opened⟩⟩
  | unopened : Step S l (.openLog none) { l with writer := none }
  | closed : Step S l .close { l with writer := none }

/-- Events one after the other. -/
inductive Run (S : LogSpec α) : DurableLog α → List (LogEvent α) → DurableLog α → Prop where
  | nil {l : DurableLog α} : Run S l [] l
  | cons {l l' l'' : DurableLog α} {e : LogEvent α} {es : List (LogEvent α)}
      (step : Step S l e l') (rest : Run S l' es l'') : Run S l (e :: es) l''

variable {S : LogSpec α} {l l' l'' : DurableLog α} {e : LogEvent α} {es fs : List (LogEvent α)}

@[simp] theorem acked_fail : l.fail.acked = l.acked := rfl

theorem run_append_iff :
    Run S l (es ++ fs) l'' ↔ ∃ l', Run S l es l' ∧ Run S l' fs l'' := by
  constructor
  · intro h
    induction es generalizing l with
    | nil => exact ⟨l, .nil, h⟩
    | cons e es ih =>
      obtain _ | ⟨step, rest⟩ := h
      obtain ⟨l', h1, h2⟩ := ih rest
      exact ⟨l', .cons step h1, h2⟩
  · rintro ⟨l', h1, h2⟩
    induction h1 with
    | nil => exact h2
    | cons step _ ih => exact .cons step (ih h2)

/-! ### What is acknowledged -/

/-- No more is acknowledged than there is. -/
theorem Step.acked_le (h : Step S l e l') (hl : l.acked ≤ l.entries.length) :
    l'.acked ≤ l'.entries.length := by
  cases h with
  | accepted => exact Nat.le_trans hl (by simp)
  | synced => exact Nat.le_refl _
  | opened _ hle => exact Nat.le_of_eq (List.length_take_of_le hle).symm
  | refused | flushed | unflushed | unsynced | finalized | unfinalized | unopened | closed =>
    exact hl

/-- What is acknowledged stays where it is. -/
theorem Step.kept (h : Step S l e l') (hl : l.acked ≤ l.entries.length) :
    l.entries.take l.acked <+: l'.entries.take l'.acked := by
  cases h with
  | accepted => rw [List.take_append_of_le_length hl]
  | synced =>
    rw [List.take_length]
    exact List.take_prefix _ _
  | opened hacked =>
    rw [List.take_take, Nat.min_self]
    exact List.take_prefix_take_left hacked
  | refused | flushed | unflushed | unsynced | finalized | unfinalized | unopened | closed =>
    exact List.prefix_refl _

theorem Run.acked_le (h : Run S l es l') (hl : l.acked ≤ l.entries.length) :
    l'.acked ≤ l'.entries.length := by
  induction h with
  | nil => exact hl
  | cons step _ ih => exact ih (step.acked_le hl)

theorem Run.kept (h : Run S l es l') (hl : l.acked ≤ l.entries.length) :
    l.entries.take l.acked <+: l'.entries.take l'.acked := by
  induction h with
  | nil => exact List.prefix_refl _
  | cons step _ ih => exact (step.kept hl).trans (ih (step.acked_le hl))

/-- As long as the log is not opened again its entries only grow. -/
theorem Run.grows (h : Run S l es l') (hopen : ∀ k, .openLog (some k) ∉ es) :
    l.entries <+: l'.entries := by
  induction h with
  | nil => exact List.prefix_refl _
  | cons step _ ih =>
    refine List.IsPrefix.trans ?_ (ih fun k hk => hopen k (List.mem_cons_of_mem _ hk))
    cases step with
    | accepted => exact List.prefix_append _ _
    | opened => exact absurd List.mem_cons_self (hopen _)
    | refused | flushed | unflushed | synced | unsynced | finalized | unfinalized | unopened
    | closed => exact List.prefix_refl _

/-- **What a client may rely on.**  An entry that was accepted at an offset and then
synchronized, before the log was opened again, stays at this offset, whatever follows. -/
theorem acknowledged_kept {a : α} {o : Nat} {before between after : List (LogEvent α)}
    (h : Run S .empty (before ++ .append a (some o) :: (between ++ .sync true :: after)) l)
    (hbetween : ∀ k, .openLog (some k) ∉ between) : l.entries[o]? = some a := by
  obtain ⟨l₁, h1, h2⟩ := run_append_iff.mp h
  obtain _ | ⟨hstep, h3⟩ := h2
  obtain ⟨l₂, h4, h5⟩ := run_append_iff.mp h3
  obtain _ | ⟨hsync, h6⟩ := h5
  have hacked := h4.acked_le (hstep.acked_le (h1.acked_le (Nat.le_refl 0)))
  obtain ⟨accepts⟩ := hstep
  have hgrows := h4.grows hbetween
  obtain _ | _ | _ | _ | usable := hsync
  have hkept := h6.kept (Nat.le_refl _)
  simp only [List.take_length] at hkept
  obtain ⟨ys, hys⟩ := (hgrows.trans hkept).trans (List.take_prefix _ _)
  rw [← hys]
  simp

end DurableLog

end Lib
