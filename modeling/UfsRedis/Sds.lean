import Mathlib.Algebra.GroupWithZero.Nat
import Mathlib.Data.List.Infix

/-!
# Strings and faults

The C code is modelled by functions into `Except Fault`. A fault stands for a step that C leaves
undefined (a null dereference, a read past a terminator, a write past a fixed buffer), so a theorem
that a function returns `.ok` also says that it does not read or write out of bounds.

A C string and an `sds` are both a list of characters, without the terminating NUL. A read of
`buf[i]` gives a character, or `none` at the terminator. The functions of `src/sds.c` that the
union-find code calls are below, each under its own name.

An `sds` with a NUL byte is outside the model of the union-find code, which keeps keys and names
with `sdsnew` and compares them with `strcmp`: both stop at the first NUL. Statements on the
arguments that a command can have are about arguments without it (`NulFree`).
-/

namespace UfsRedis

open List

/-- Why a run of the C code has no defined continuation. -/
inductive Fault where
  /-- A null pointer is dereferenced. -/
  | nullDeref
  /-- `argv[i]` is read with `i ≥ argc`. -/
  | argvBounds
  /-- An array is indexed outside its bounds. -/
  | indexBounds
  /-- A string is read past its terminator. -/
  | readPastEnd
  /-- A fixed buffer is written past its end. -/
  | bufferOverflow
  /-- A loop did not end within its fuel. -/
  | noFuel
  /-- An `assert` fails. -/
  | assertFailed
  /-- A signed number leaves its range. -/
  | intOverflow
  deriving DecidableEq, Repr

section

variable {α β ε : Type} {x : Except Fault α} {f : α → Except Fault β} {b : β}

@[simp] theorem ok_bind (a : α) (f : α → Except ε β) : (.ok a >>= f) = f a := rfl

@[simp] theorem error_bind (e : ε) (f : α → Except ε β) :
    ((.error e : Except ε α) >>= f) = .error e := rfl

@[simp] theorem pure_eq_ok (a : α) : (pure a : Except Fault α) = .ok a := rfl

theorem bind_eq_ok : (x >>= f) = .ok b ↔ ∃ a, x = .ok a ∧ f a = .ok b := by
  cases x <;> simp

theorem exists_ok_imp {P Q : α → Prop} (h : ∃ a, x = .ok a ∧ P a)
    (himp : ∀ a, x = .ok a → P a → Q a) : ∃ a, x = .ok a ∧ Q a := by
  obtain ⟨a, ha, hp⟩ := h
  exact ⟨a, ha, himp a ha hp⟩

/-- What a computation returns can be checked by running it. -/
instance {p : α → Prop} [DecidablePred p] : Decidable (∃ a, x = .ok a ∧ p a) :=
  match x with
  | .ok a => decidable_of_iff (p a) ⟨fun h => ⟨a, rfl, h⟩, fun ⟨_, h, hp⟩ => Except.ok.inj h ▸ hp⟩
  | .error _ => isFalse fun ⟨_, h, _⟩ => nomatch h

instance {p : α → Prop} [DecidablePred p] : Decidable (∀ a, x = .ok a → p a) :=
  match x with
  | .ok a => decidable_of_iff (p a) ⟨fun hp _ h => Except.ok.inj h ▸ hp, fun h => h a rfl⟩
  | .error _ => isTrue fun _ h => nomatch h

end

/-- The value behind a pointer that may be `NULL`. -/
def deref {α : Type} : Option α → Except Fault α
  | some a => .ok a
  | none => .error .nullDeref

@[simp] theorem deref_some {α : Type} (a : α) : deref (some a) = .ok a := rfl

@[simp] theorem deref_none {α : Type} : deref (none : Option α) = .error .nullDeref := rfl

theorem deref_eq_ok {α : Type} {o : Option α} {a : α} : deref o = .ok a ↔ o = some a := by
  cases o <;> simp

/-- A C string or an `sds`: its characters, without the terminator. -/
abbrev Sds := List Char

instance : LawfulBEq Sds := inferInstance

/-- No NUL byte: the functions of C read the whole string. -/
def NulFree (s : Sds) : Prop := '\x00' ∉ s

instance (s : Sds) : Decidable (NulFree s) := inferInstanceAs (Decidable (¬ _))

/-- The arguments of a command. -/
abbrev Argv := {argv : List Sds // ∀ a ∈ argv, NulFree a}

/-- The marker that operational transformation puts for an empty operand. -/
def star : Sds := ['*']

/-- `sdssplitlen(s,len,sep,1,&count)`: the tokens of the first `len` characters. No character
gives no token. -/
def sdssplitlen (s : Sds) (len : Nat) (sep : Char) : Except Fault (List Sds) :=
  if s.length < len then .error .readPastEnd
  else if len = 0 then .ok []
  else .ok ((s.take len).splitOn sep)

/-- `sdssplitlen` with the length of the string. -/
def sdssplit (s : Sds) (sep : Char) : List Sds :=
  if s = [] then [] else s.splitOn sep

theorem sdssplitlen_length (s : Sds) (sep : Char) :
    sdssplitlen s s.length sep = .ok (sdssplit s sep) := by
  unfold sdssplitlen sdssplit
  cases s <;> simp

/-- The loop that appends tokens with a separator after each but the last. -/
def sdsjoin (xs : List Sds) (sep : Char) : Sds := [sep].intercalate xs

/-- `sdstrim(s,cset)` for a set of one character. -/
def sdstrim (s : Sds) (c : Char) : Sds :=
  ((s.dropWhile (· == c)).reverse.dropWhile (· == c)).reverse

/-- `sdsrange(s,start,end)`: the characters from `start` to `stop`, both included; negative
indexes count from the end. -/
def sdsrange (s : Sds) (start stop : Int) : Sds :=
  let len : Int := s.length
  if len = 0 then s
  else
    let start := if start < 0 then max (len + start) 0 else start
    let stop := if stop < 0 then max (len + stop) 0 else stop
    if start > stop then []
    else if start ≥ len then []
    else
      let stop := if stop ≥ len then len - 1 else stop
      if start > stop then [] else (s.drop start.toNat).take (stop - start + 1).toNat

/-- `strstr(s,t) != NULL`: `t` occurs in `s`. -/
def strstr (s t : Sds) : Bool := s.tails.any t.isPrefixOf

theorem strstr_iff : strstr s t = true ↔ t <:+: s := by
  simp only [strstr, any_eq_true, mem_tails, isPrefixOf_iff_prefix]
  constructor
  · rintro ⟨u, ⟨v, hv⟩, w, hw⟩
    exact ⟨v, w, by rw [append_assoc, hw, hv]⟩
  rintro ⟨v, w, h⟩
  exact ⟨t ++ w, ⟨v, by rw [← append_assoc, h]⟩, w, rfl⟩

/-! ## Joining and splitting -/

@[simp] theorem sdsjoin_nil (sep : Char) : sdsjoin [] sep = [] := rfl

@[simp] theorem sdsjoin_singleton (x : Sds) (sep : Char) : sdsjoin [x] sep = x := by
  simp [sdsjoin]

variable {xs : List Sds} {sep : Char}

theorem sdsjoin_cons (x : Sds) (h : xs ≠ []) (sep : Char) :
    sdsjoin (x :: xs) sep = x ++ sep :: sdsjoin xs sep := by
  simp [sdsjoin, intercalate_cons_of_ne_nil h]

theorem sdsjoin_append (hx : xs ≠ []) (hy : ys ≠ []) (sep : Char) :
    sdsjoin (xs ++ ys) sep = sdsjoin xs sep ++ sep :: sdsjoin ys sep := by
  induction xs with
  | nil => exact absurd rfl hx
  | cons x xs ih =>
    obtain _ | ⟨z, zs⟩ := xs
    · simp [sdsjoin_cons x hy]
    rw [cons_append, sdsjoin_cons x (by simp), ih (by simp),
      sdsjoin_cons x (by simp), append_assoc, cons_append]

theorem sdsjoin_eq_nil (hne : xs ≠ []) (h : ∀ x ∈ xs, x ≠ []) : sdsjoin xs sep ≠ [] := by
  obtain _ | ⟨x, xs⟩ := xs
  · exact absurd rfl hne
  have hx := h x (by simp)
  cases xs with
  | nil => simpa using hx
  | cons z zs => rw [sdsjoin_cons x (by simp)]; simp

theorem mem_sdsjoin (h : c ∈ sdsjoin xs sep) : c = sep ∨ ∃ x ∈ xs, c ∈ x := by
  induction xs with
  | nil => simp at h
  | cons x xs ih =>
    obtain _ | ⟨z, zs⟩ := xs
    · exact .inr ⟨x, by simp, by simpa using h⟩
    rw [sdsjoin_cons x (by simp), mem_append, mem_cons] at h
    rcases h with h | h | h
    · exact .inr ⟨x, by simp, h⟩
    · exact .inl h
    rcases ih h with h | ⟨y, hy, hc⟩
    · exact .inl h
    · exact .inr ⟨y, by simp [hy], hc⟩

/-- Splitting undoes joining, for tokens without the separator. A single empty token is the one
list that is lost. -/
theorem sdssplit_sdsjoin (h : ∀ x ∈ xs, sep ∉ x)
    (hne : ∀ x ∈ xs, x ≠ []) : sdssplit (sdsjoin xs sep) sep = xs := by
  by_cases hx : xs = []
  · simp [hx, sdssplit]
  rw [sdssplit, if_neg (sdsjoin_eq_nil hx hne)]
  exact splitOn_intercalate sep h hx

@[simp] theorem sdsjoin_sdssplit (s : Sds) (sep : Char) : sdsjoin (sdssplit s sep) sep = s := by
  unfold sdssplit
  split
  · rename_i h; simp [h]
  · exact intercalate_splitOn sep

end UfsRedis
