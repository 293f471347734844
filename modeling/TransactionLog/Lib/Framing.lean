import Mathlib.Algebra.Order.Ring.Nat
import Mathlib.Data.List.Infix

/-!
# Cutting a sequence into frames

A `Framing` looks at the front of a sequence and says that a frame of some
length stands there, that no frame can stand there, or that it needs more.  Its
laws make the answer independent of how much of the sequence is at hand: what it
has settled stays settled when more arrives (`look_append`), and as long as part
of a frame is missing it asks for more (`look_take`).

`frames` and `rest` cut off frames from the front as long as there are any.

* `frames_flatten_append`, `rest_flatten_append`: whole frames at the front are cut
  off as they are.
* `torn`: a prefix of whole frames is cut into the frames that are complete in
  it, and asks for more after them.
-/

namespace Lib

inductive Verdict (ε : Type) where
  | more
  | frame (n : Nat)
  | bad (e : ε)

structure Framing (β ε : Type) where
  look : List β → Verdict ε
  look_nil : look [] = .more
  frame_bounds : ∀ {xs n}, look xs = .frame n → 0 < n ∧ n ≤ xs.length
  look_append : ∀ {xs} ys, look xs ≠ .more → look (xs ++ ys) = look xs
  look_frame : ∀ {xs n}, look xs = .frame n → look (xs.take n) = .frame n
  look_take : ∀ {xs n m}, look xs = .frame n → m < n → look (xs.take m) = .more

namespace Framing

variable {β ε : Type} (F : Framing β ε)

/-- `f` is exactly one frame. -/
def Whole (f : List β) : Prop := F.look f = .frame f.length

/-- No frame stands at the front of `xs`. -/
def Stuck (xs : List β) : Prop := ∀ n, F.look xs ≠ .frame n

def cut : Nat → List β → List (List β) × List β
  | 0, xs => ([], xs)
  | fuel + 1, xs =>
    match F.look xs with
    | .frame n => (xs.take n :: (cut fuel (xs.drop n)).1, (cut fuel (xs.drop n)).2)
    | _ => ([], xs)

def frames (xs : List β) : List (List β) := (F.cut xs.length xs).1

def rest (xs : List β) : List β := (F.cut xs.length xs).2

/-! ### The cut, one frame at a time -/

theorem cut_of_stuck {xs : List β} (h : F.Stuck xs) (fuel : Nat) : F.cut fuel xs = ([], xs) := by
  cases fuel with
  | zero => rfl
  | succ fuel =>
    rw [cut]
    cases hl : F.look xs with
    | frame n => exact absurd hl (h n)
    | _ => rfl

theorem cut_fuel : ∀ (fuel : Nat) (xs : List β), xs.length ≤ fuel →
    F.cut fuel xs = F.cut xs.length xs := by
  intro fuel
  induction fuel using Nat.strongRecOn with
  | ind fuel ih =>
    intro xs hxs
    cases hl : F.look xs with
    | frame n =>
      obtain ⟨hn, hle⟩ := F.frame_bounds hl
      obtain ⟨k, hk⟩ : ∃ k, xs.length = k + 1 := ⟨xs.length - 1, by omega⟩
      obtain ⟨j, rfl⟩ : ∃ j, fuel = j + 1 := ⟨fuel - 1, by omega⟩
      have hd : (xs.drop n).length ≤ k := by rw [List.length_drop]; omega
      rw [hk, cut, cut, hl]
      simp only
      rw [ih j (by omega) _ (by omega), ← ih k (by omega) _ hd]
    | more => rw [F.cut_of_stuck (by intro n; simp [hl]), F.cut_of_stuck (by intro n; simp [hl])]
    | bad e => rw [F.cut_of_stuck (by intro n; simp [hl]), F.cut_of_stuck (by intro n; simp [hl])]

variable {F} {xs ys : List β} {n : Nat}

theorem cut_of_frame (h : F.look xs = .frame n) :
    F.cut xs.length xs = (xs.take n :: F.frames (xs.drop n), F.rest (xs.drop n)) := by
  obtain ⟨hn, hle⟩ := F.frame_bounds h
  obtain ⟨k, hk⟩ : ∃ k, xs.length = k + 1 := ⟨xs.length - 1, by omega⟩
  have hd : (xs.drop n).length ≤ k := by rw [List.length_drop]; omega
  rw [hk, cut, h]
  simp only
  rw [F.cut_fuel k _ hd]
  rfl

theorem frames_of_frame (h : F.look xs = .frame n) :
    F.frames xs = xs.take n :: F.frames (xs.drop n) := by
  rw [frames, cut_of_frame h]

theorem rest_of_frame (h : F.look xs = .frame n) : F.rest xs = F.rest (xs.drop n) := by
  rw [rest, cut_of_frame h]

theorem frames_of_stuck (h : F.Stuck xs) : F.frames xs = [] := by rw [frames, cut_of_stuck F h]

theorem rest_of_stuck (h : F.Stuck xs) : F.rest xs = xs := by rw [rest, cut_of_stuck F h]

theorem stuck_of_more (h : F.look xs = .more) : F.Stuck xs := by intro n; simp [h]

theorem stuck_of_bad {e : ε} (h : F.look xs = .bad e) : F.Stuck xs := by intro n; simp [h]

theorem stuck_nil : F.Stuck ([] : List β) := stuck_of_more F.look_nil

/-- Induction along the cut. -/
theorem cutInduction {motive : List β → Prop}
    (frame : ∀ xs n, F.look xs = .frame n → motive (xs.drop n) → motive xs)
    (stuck : ∀ xs, F.Stuck xs → motive xs) (xs : List β) : motive xs := by
  induction hlen : xs.length using Nat.strongRecOn generalizing xs with
  | ind k ih =>
    by_cases h : F.Stuck xs
    · exact stuck xs h
    · simp only [Stuck, not_forall, not_not] at h
      obtain ⟨n, hn⟩ := h
      obtain ⟨hpos, hle⟩ := F.frame_bounds hn
      exact frame xs n hn (ih _ (by rw [List.length_drop]; omega) _ rfl)

/-! ### What the cut is -/

theorem flatten_frames_append_rest (xs : List β) : (F.frames xs).flatten ++ F.rest xs = xs := by
  induction xs using F.cutInduction with
  | frame xs n h ih =>
    rw [frames_of_frame h, rest_of_frame h, List.flatten_cons, List.append_assoc, ih,
      List.take_append_drop]
  | stuck xs h => rw [frames_of_stuck h, rest_of_stuck h]; rfl

theorem stuck_rest (xs : List β) : F.Stuck (F.rest xs) := by
  induction xs using F.cutInduction with
  | frame xs n h ih => rw [rest_of_frame h]; exact ih
  | stuck xs h => rw [rest_of_stuck h]; exact h

theorem whole_take (h : F.look xs = .frame n) : F.Whole (xs.take n) := by
  rw [Whole, F.look_frame h, List.length_take, Nat.min_eq_left (F.frame_bounds h).2]

theorem whole_of_mem_frames (xs : List β) : ∀ f ∈ F.frames xs, F.Whole f := by
  induction xs using F.cutInduction with
  | frame xs n h ih =>
    rw [frames_of_frame h]
    intro f hf
    rcases List.mem_cons.mp hf with rfl | hf
    · exact whole_take h
    · exact ih f hf
  | stuck xs h => rw [frames_of_stuck h]; simp

theorem Whole.length_pos {f : List β} (h : F.Whole f) : 0 < f.length := (F.frame_bounds h).1

theorem Whole.look_append {f : List β} (h : F.Whole f) (ys : List β) :
    F.look (f ++ ys) = .frame f.length := by
  rw [F.look_append ys (by simp [show F.look f = .frame f.length from h])]
  exact h

theorem frames_cons {f : List β} (h : F.Whole f) (ys : List β) :
    F.frames (f ++ ys) = f :: F.frames ys := by
  rw [frames_of_frame (h.look_append ys), List.take_left, List.drop_left]

theorem rest_cons {f : List β} (h : F.Whole f) (ys : List β) : F.rest (f ++ ys) = F.rest ys := by
  rw [rest_of_frame (h.look_append ys), List.drop_left]

/-- Whole frames in front are cut off first. -/
theorem frames_flatten_append : ∀ {fs : List (List β)}, (∀ f ∈ fs, F.Whole f) → ∀ ys,
    F.frames (fs.flatten ++ ys) = fs ++ F.frames ys := by
  intro fs
  induction fs with
  | nil => intro _ ys; rfl
  | cons f fs ih =>
    intro h ys
    rw [List.flatten_cons, List.append_assoc, frames_cons (h f List.mem_cons_self),
      ih (fun g hg => h g (List.mem_cons_of_mem f hg))]
    rfl

theorem rest_flatten_append : ∀ {fs : List (List β)}, (∀ f ∈ fs, F.Whole f) → ∀ ys,
    F.rest (fs.flatten ++ ys) = F.rest ys := by
  intro fs
  induction fs with
  | nil => intro _ ys; rfl
  | cons f fs ih =>
    intro h ys
    rw [List.flatten_cons, List.append_assoc, rest_cons (h f List.mem_cons_self),
      ih (fun g hg => h g (List.mem_cons_of_mem f hg))]

/-! ### Torn sequences -/

/-- **A prefix of whole frames** is cut into those complete in it; after them it
asks for more. -/
theorem torn : ∀ {fs : List (List β)}, (∀ f ∈ fs, F.Whole f) → ∀ xs, xs <+: fs.flatten →
    (∃ k, F.frames xs = fs.take k) ∧ F.look (F.rest xs) = .more := by
  intro fs
  induction fs with
  | nil =>
    intro _ xs hx
    obtain rfl := List.prefix_nil.mp hx
    rw [frames_of_stuck stuck_nil, rest_of_stuck stuck_nil]
    exact ⟨⟨0, rfl⟩, F.look_nil⟩
  | cons f fs ih =>
    intro hf xs hx
    have hw := hf f List.mem_cons_self
    rw [List.flatten_cons] at hx
    by_cases hlen : xs.length < f.length
    · have hxs : xs = f.take xs.length := by
        rw [List.prefix_iff_eq_take.mp hx, List.take_append_of_le_length (by omega)]
        simp
      have hmore : F.look xs = .more := by rw [hxs]; exact F.look_take hw hlen
      rw [frames_of_stuck (stuck_of_more hmore), rest_of_stuck (stuck_of_more hmore)]
      exact ⟨⟨0, rfl⟩, hmore⟩
    · obtain ⟨zs, rfl⟩ : ∃ zs, xs = f ++ zs := by
        obtain ⟨ys, hys⟩ := hx
        refine ⟨xs.drop f.length, ?_⟩
        have : f = xs.take f.length := by
          have := congrArg (List.take f.length) hys
          rw [List.take_left, List.take_append_of_le_length (by omega)] at this
          exact this.symm
        conv_lhs => rw [← List.take_append_drop f.length xs, ← this]
      have hz : zs <+: fs.flatten := (List.prefix_append_right_inj f).mp hx
      obtain ⟨⟨k, hk⟩, hmore⟩ := ih (fun g hg => hf g (List.mem_cons_of_mem f hg)) zs hz
      rw [frames_cons hw, rest_cons hw, hk]
      exact ⟨⟨k + 1, rfl⟩, hmore⟩

end Framing

end Lib
