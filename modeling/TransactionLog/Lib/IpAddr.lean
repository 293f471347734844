import Mathlib.Data.List.TakeWhile
import TransactionLog.Lib.Decimal

/-!
# IP addresses

The recognizer of IPv4 and IPv6 addresses in the text forms that the standard library
accepts.  A reader gives what is left of the text, or `none` where it reads nothing.
-/

namespace Lib

namespace IpAddr

def dot : UInt8 := 46

def colon : UInt8 := 58

/-- The value of a digit of a radix up to 16, in either case. -/
def toDigit (radix : Nat) (b : UInt8) : Option Nat :=
  let n := b.toNat
  let value :=
    if 48 ≤ n ∧ n ≤ 57 then n - 48
    else if 97 ≤ n ∧ n ≤ 102 then n - 87
    else if 65 ≤ n ∧ n ≤ 70 then n - 55
    else radix
  if value < radix then some value else none

def readGivenChar (c : UInt8) : List UInt8 → Option (List UInt8)
  | [] => none
  | b :: s => if b = c then some s else none

/-- A number of at most `maxDigits` digits that is no more than `max`. -/
def readNumber (radix maxDigits max : Nat) (allowZeroPrefix : Bool) (s : List UInt8) :
    Option (List UInt8) :=
  let isDigit := fun b => (toDigit radix b).isSome
  let digits := s.takeWhile isDigit
  let value := digits.foldl (fun n b => n * radix + (toDigit radix b).getD 0) 0
  if digits.length > maxDigits then none
  else if digits.length = 0 then none
  else if allowZeroPrefix = false ∧ s.head? = some 48 ∧ digits.length > 1 then none
  else if value ≤ max then some (s.dropWhile isDigit)
  else none

/-- What `inner` reads, behind a separator unless it is the first of a sequence. -/
def readSeparator (sep : UInt8) (index : Nat) (inner : List UInt8 → Option (List UInt8))
    (s : List UInt8) : Option (List UInt8) :=
  if index > 0 then (readGivenChar sep s).bind inner else inner s

/-- The numbers of an IPv4 address from the one at `index` on. -/
def readOctets : (remaining index : Nat) → List UInt8 → Option (List UInt8)
  | 0, _, s => some s
  | remaining + 1, index, s =>
    (readSeparator dot index (readNumber 10 3 255 false) s).bind
      (readOctets remaining (index + 1))

def readIpv4Addr (s : List UInt8) : Option (List UInt8) := readOctets 4 0 s

/-- The groups of an IPv6 address from the one at `index` on, up to `limit` of them: how
many there are then, whether the last two are an IPv4 address, and what is left. -/
def readGroups (limit : Nat) : (remaining index : Nat) → List UInt8 → Nat × Bool × List UInt8
  | 0, _, s => (limit, false, s)
  | remaining + 1, index, s =>
    match if index + 1 < limit then readSeparator colon index readIpv4Addr s else none with
    | some rest => (index + 2, true, rest)
    | none =>
      match readSeparator colon index (readNumber 16 4 65535 true) s with
      | some rest => readGroups limit remaining (index + 1) rest
      | none => (index, false, s)

def readIpv6Addr (s : List UInt8) : Option (List UInt8) :=
  let (headSize, headIpv4, rest) := readGroups 8 8 0 s
  if headSize = 8 then some rest
  else if headIpv4 then none
  else
    ((readGivenChar colon rest).bind (readGivenChar colon)).map fun rest =>
      (readGroups (8 - (headSize + 1)) (8 - (headSize + 1)) 0 rest).2.2

/-- An address and nothing behind it. -/
def isIpAddr (s : List UInt8) : Bool := (readIpv4Addr s <|> readIpv6Addr s) = some []

example : isIpAddr (ascii "127.0.0.1") = true := by decide
example : isIpAddr (ascii "127.0.0.01") = false := by decide
example : isIpAddr (ascii "2001:DB8::7:1.2.3.4") = true := by decide

/-! ### The characters of an address -/

theorem readGivenChar_eq_some {c : UInt8} {s rest : List UInt8} :
    readGivenChar c s = some rest ↔ s = c :: rest := by
  cases s with
  | nil => simp [readGivenChar]
  | cons b s =>
    rw [readGivenChar, List.cons.injEq]
    split
    · simp [*]
    · simp [*]

theorem isDigit_of_toDigit {b : UInt8} (h : (toDigit 10 b).isSome = true) : isDigit b = true := by
  rw [isDigit_iff]
  by_contra hb
  rw [toDigit] at h
  simp only [if_neg hb] at h
  split at h
  · rw [if_neg (by omega)] at h
    cases h
  · split at h
    · rw [if_neg (by omega)] at h
      cases h
    · rw [if_neg (by omega)] at h
      cases h

/-- A number leaves what follows its digits. -/
theorem readNumber_eq_some {radix maxDigits max : Nat} {allowZeroPrefix : Bool}
    {s rest : List UInt8} (h : readNumber radix maxDigits max allowZeroPrefix s = some rest) :
    ∃ digits, s = digits ++ rest ∧ ∀ b ∈ digits, (toDigit radix b).isSome = true := by
  let isDigit := fun b => (toDigit radix b).isSome
  refine ⟨s.takeWhile isDigit, ?_, fun b hb => List.mem_takeWhile_imp (p := isDigit) hb⟩
  simp only [readNumber] at h
  split at h
  · cases h
  split at h
  · cases h
  split at h
  · cases h
  split at h
  · obtain rfl := Option.some.inj h
    exact List.takeWhile_append_dropWhile.symm
  · cases h

/-- An IPv4 address is made of digits and dots. -/
theorem readOctets_eq_some (remaining : Nat) : ∀ (index : Nat) {s rest : List UInt8},
    readOctets remaining index s = some rest →
    ∃ octets, s = octets ++ rest ∧ ∀ b ∈ octets, isDigit b = true ∨ b = dot := by
  induction remaining with
  | zero =>
    intro index s rest h
    obtain rfl := Option.some.inj h
    exact ⟨[], rfl, by simp⟩
  | succ remaining ih =>
    intro index s rest h
    obtain ⟨s₁, h₁, hrest⟩ := Option.bind_eq_some_iff.mp h
    obtain ⟨octets, rfl, hoctets⟩ := ih (index + 1) hrest
    have hfirst : ∃ first, s = first ++ (octets ++ rest) ∧
        ∀ b ∈ first, isDigit b = true ∨ b = dot := by
      rw [readSeparator] at h₁
      split at h₁
      · obtain ⟨s₂, h₂, hnumber⟩ := Option.bind_eq_some_iff.mp h₁
        obtain rfl := readGivenChar_eq_some.mp h₂
        obtain ⟨digits, rfl, hdigits⟩ := readNumber_eq_some hnumber
        refine ⟨dot :: digits, rfl, fun b hb => ?_⟩
        rcases List.mem_cons.mp hb with rfl | hb
        · exact .inr rfl
        · exact .inl (isDigit_of_toDigit (hdigits b hb))
      · obtain ⟨digits, rfl, hdigits⟩ := readNumber_eq_some h₁
        exact ⟨digits, rfl, fun b hb => .inl (isDigit_of_toDigit (hdigits b hb))⟩
    obtain ⟨first, rfl, hfirst⟩ := hfirst
    refine ⟨first ++ octets, (List.append_assoc _ _ _).symm, fun b hb => ?_⟩
    rcases List.mem_append.mp hb with hb | hb
    · exact hfirst b hb
    · exact hoctets b hb

theorem readSeparator_eq_some {sep : UInt8} {index : Nat}
    {inner : List UInt8 → Option (List UInt8)} {s rest : List UInt8} (hindex : 0 < index)
    (h : readSeparator sep index inner s = some rest) : sep ∈ s := by
  rw [readSeparator, if_pos hindex] at h
  obtain ⟨s', hs, -⟩ := Option.bind_eq_some_iff.mp h
  rw [readGivenChar_eq_some.mp hs]
  exact List.mem_cons_self

/-- Groups behind the first begin with a colon. -/
theorem readGroups_colon {limit remaining index : Nat} (hindex : 0 < index) (s : List UInt8) :
    colon ∈ s ∨ readGroups limit (remaining + 1) index s = (index, false, s) := by
  rw [readGroups]
  split
  next rest h =>
    split at h
    · exact .inl (readSeparator_eq_some hindex h)
    · cases h
  · split
    next rest h => exact .inl (readSeparator_eq_some hindex h)
    · exact .inr rfl

/-- An IPv6 address has a colon: before its second group, or else in its `::`. -/
theorem colon_mem_of_readIpv6Addr {s rest : List UInt8} (h : readIpv6Addr s = some rest) :
    colon ∈ s := by
  have hpair : ∀ {s' : List UInt8} {g : List UInt8 → List UInt8},
      (((readGivenChar colon s').bind (readGivenChar colon)).map g) = some rest →
        colon ∈ s' := by
    intro s' g h
    obtain ⟨s₂, h₂, -⟩ := Option.map_eq_some_iff.mp h
    obtain ⟨s₁, h₁, -⟩ := Option.bind_eq_some_iff.mp h₂
    rw [readGivenChar_eq_some.mp h₁]
    exact List.mem_cons_self
  rw [readIpv6Addr, readGroups] at h
  simp only [show 0 + 1 < 8 by decide, if_true] at h
  split at h
  · cases h
  · split at h
    next s₁ hnumber =>
      obtain ⟨digits, rfl, -⟩ := readNumber_eq_some hnumber
      refine List.mem_append_right digits ?_
      rcases readGroups_colon Nat.zero_lt_one s₁ with hcolon | heq
      · exact hcolon
      · rw [heq] at h
        exact hpair h
    · exact hpair h

theorem isIpAddr_chars {s : List UInt8} (h : isIpAddr s = true) :
    (∀ b ∈ s, isDigit b = true ∨ b = dot) ∨ colon ∈ s := by
  rw [isIpAddr, decide_eq_true_eq] at h
  rcases h4 : readIpv4Addr s with _ | rest
  · rw [h4] at h
    exact .inr (colon_mem_of_readIpv6Addr h)
  · rw [h4] at h
    obtain rfl := Option.some.inj h
    obtain ⟨octets, rfl, hoctets⟩ := readOctets_eq_some 4 0 h4
    rw [List.append_nil]
    exact .inl hoctets

end IpAddr

end Lib
