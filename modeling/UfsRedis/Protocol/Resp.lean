import UfsRedis.Sds
import Mathlib.Tactic.IntervalCases

/-!
# Commands in the protocol

A command is written as `*argc`, and each of its arguments as `$len` and its bytes, each followed by
the end of a line. Links and the append only file use this format.
-/

namespace UfsRedis

open List

/-! ## Writing -/

/-- `ll2string`, for a length. -/
def ll2string (n : Nat) : List Char := Nat.toDigits 10 n

def crlf : List Char := ['\r', '\n']

/-- A length: `*n` before the arguments of a command, `$n` before an argument. -/
def lenHeader (c : Char) (n : Nat) : List Char := c :: (ll2string n ++ crlf)

def respArg (o : Sds) : List Char := lenHeader '$' o.length ++ o ++ crlf

def resp (argv : List Sds) : List Char := lenHeader '*' argv.length ++ argv.flatMap respArg

theorem resp_ne_nil (argv : List Sds) : resp argv ≠ [] := by simp [resp, lenHeader]

theorem length_le_flatMap_resp (cmds : List (List Sds)) :
    cmds.length ≤ (cmds.flatMap resp).length := by
  induction cmds with
  | nil => simp
  | cons argv cmds ih =>
    have := length_pos_iff.mpr (resp_ne_nil argv)
    rw [flatMap_cons, length_append, length_cons]
    omega

/-! ## Reading -/

/-- `fgets`: a line with its end, and the rest. The lines that are read here are short. -/
def fgets (s : List Char) : List Char × List Char :=
  (s.take (s.idxOf '\n' + 1), s.drop (s.idxOf '\n' + 1))

/-- `atoi`, of a text without a sign. -/
def atoi (s : List Char) : Nat :=
  Nat.ofDigitChars 10 ((s.dropWhile (·.isWhitespace)).takeWhile (·.isDigit)) 0

def readArg (s : List Char) : Option (Sds × List Char) :=
  let (buf, s) := fgets s
  if buf.head? ≠ some '$' then none
  else
    let len := atoi buf.tail
    if s.length < len + 2 then none else some (s.take len, s.drop (len + 2))

/-- `argc` arguments are read. -/
def readArgs : Nat → List Char → Option (List Sds × List Char)
  | 0, s => some ([], s)
  | argc + 1, s => do
    let (o, s) ← readArg s
    let (argv, s) ← readArgs argc s
    some (o :: argv, s)

def readCommand (s : List Char) : Option (List Sds × List Char) :=
  let (buf, s) := fgets s
  if buf.head? ≠ some '*' then none
  else
    let argc := atoi buf.tail
    if argc < 1 then none else readArgs argc s

variable {c : Char} {n : Nat} {s : List Char} {argv : List Sds}

theorem isDigit_of_mem_ll2string (h : c ∈ ll2string n) : c.isDigit :=
  Nat.isDigit_of_mem_toDigits (by decide) (by decide) h

theorem not_mem_ll2string (hc : c.isDigit = false) : c ∉ ll2string n := fun h => by
  have := isDigit_of_mem_ll2string h
  rw [hc] at this
  exact Bool.false_ne_true this

theorem exists_ll2string_eq_cons (hn : 0 < n) : ∃ d ds, ll2string n = d :: ds ∧ d ≠ '0' := by
  induction n using Nat.strongRecOn with
  | _ n ih =>
    unfold ll2string at *
    by_cases hlt : n < 10
    · refine ⟨n.digitChar, [], Nat.toDigits_of_lt_base hlt, ?_⟩
      interval_cases n <;> decide
    obtain ⟨d, ds, heq, hd⟩ := ih (n / 10) (by omega) (by omega)
    exact ⟨d, ds ++ [(n % 10).digitChar], by
      rw [Nat.toDigits_of_base_le (by omega) (by omega), heq, cons_append], hd⟩

theorem le_ofDigitChars (s : List Char) (v : Nat) : v ≤ Nat.ofDigitChars 10 s v := by
  rw [Nat.ofDigitChars_eq_ofDigitChars_zero]
  have : 1 * v ≤ 10 ^ s.length * v := Nat.mul_le_mul_right v (Nat.one_le_pow _ _ (by omega))
  omega

theorem fgets_lenHeader (hc : c ≠ '\n') : fgets (lenHeader c n ++ s) = (lenHeader c n, s) := by
  have hidx : (lenHeader c n ++ s).idxOf '\n' + 1 = (lenHeader c n).length := by
    have hnot : '\n' ∉ c :: (ll2string n ++ ['\r']) := by
      simp [not_mem_ll2string (c := '\n') (by decide), hc.symm]
    have hsplit : lenHeader c n ++ s = (c :: (ll2string n ++ ['\r'])) ++ '\n' :: s := by
      simp [lenHeader, crlf]
    rw [hsplit, idxOf_append_of_notMem hnot, idxOf_cons_self]
    simp [lenHeader, crlf]
  rw [fgets, hidx, take_left, drop_left]

theorem not_isWhitespace (hc : c.isDigit = true) : c.isWhitespace = false := by
  by_contra h
  rw [Bool.not_eq_false, Char.isWhitespace] at h
  simp only [Bool.or_eq_true, decide_eq_true_eq] at h
  rcases h with ((rfl | rfl) | rfl) | rfl <;> exact absurd hc (by decide)

theorem dropWhile_ll2string :
    (ll2string n ++ crlf).dropWhile (·.isWhitespace) = ll2string n ++ crlf ∨ ll2string n = [] := by
  rcases h : ll2string n with _ | ⟨d, ds⟩
  · exact .inr rfl
  have hd : d.isDigit = true := isDigit_of_mem_ll2string (h ▸ mem_cons_self)
  exact .inl (by rw [cons_append, dropWhile_cons_of_neg (by simp [not_isWhitespace hd])])

theorem atoi_ll2string : atoi (ll2string n ++ crlf) = n := by
  have hval : Nat.ofDigitChars 10 (ll2string n) 0 = n :=
    Nat.ofDigitChars_toDigits (by decide) (by decide)
  have hdigit : ∀ d ∈ ll2string n, d.isDigit = true := fun d hd => isDigit_of_mem_ll2string hd
  rcases dropWhile_ll2string (n := n) with h | h
  · rw [atoi, h, takeWhile_append_of_pos hdigit]
    exact (congrArg (Nat.ofDigitChars 10 · 0) (append_nil _)).trans hval
  rw [h] at hval ⊢
  rw [← hval]
  rfl

theorem readArg_respArg (o : Sds) : readArg (respArg o ++ s) = some (o, s) := by
  have htail : (lenHeader '$' o.length).tail = ll2string o.length ++ crlf := rfl
  have hhead : (lenHeader '$' o.length).head? = some '$' := rfl
  rw [readArg, respArg, append_assoc, append_assoc, fgets_lenHeader (by decide)]
  have hlen : ¬ (o ++ (crlf ++ s)).length < o.length + 2 := by simp [crlf]
  have hdrop : (o ++ (crlf ++ s)).drop (o.length + 2) = s := by
    rw [← drop_drop, drop_left]
    rfl
  simp only [hhead, htail, atoi_ll2string, if_neg hlen, hdrop, take_left]
  rfl

theorem readArgs_flatMap (argv : List Sds) :
    readArgs argv.length (argv.flatMap respArg ++ s) = some (argv, s) := by
  induction argv with
  | nil => rfl
  | cons o argv ih =>
    rw [length_cons, readArgs, flatMap_cons, append_assoc, readArg_respArg]
    show (readArgs _ _).bind _ = _
    rw [ih]
    rfl

theorem readCommand_resp (hargv : argv ≠ []) : readCommand (resp argv ++ s) = some (argv, s) := by
  have htail : (lenHeader '*' argv.length).tail = ll2string argv.length ++ crlf := rfl
  have hhead : (lenHeader '*' argv.length).head? = some '*' := rfl
  have hlen : ¬ argv.length < 1 := by
    have := length_pos_iff.mpr hargv
    omega
  rw [readCommand, resp, append_assoc, fgets_lenHeader (by decide)]
  simp only [hhead, htail, atoi_ll2string, if_neg hlen, readArgs_flatMap]
  rfl

end UfsRedis
