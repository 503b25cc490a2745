import Mathlib.Data.List.TakeWhile
import UfsRedis.Protocol.Multibulk

/-!
# The keys among the arguments of a command

`sortGetKeys`, `zunionInterGetKeys` and `evalGetKeys` of `src/db.c` return the positions of the keys.
They repeat a part of the parsing of `sortCommand` and `zunionInterGenericCommand`.
-/

namespace UfsRedis.GetKeys

open List

/-! ## Options of `SORT` -/

inductive Opt where
  | asc
  | desc
  | alpha
  | limit
  | store
  | sortBy
  | get
  deriving DecidableEq

def optNames : List (Opt × String) :=
  [(.asc, "asc"), (.desc, "desc"), (.alpha, "alpha"), (.limit, "limit"), (.store, "store"),
    (.sortBy, "by"), (.get, "get")]

/-- The option that an argument names, by `strcasecmp`. -/
def optOf (a : Sds) : Option Opt :=
  (optNames.find? fun n => (a.takeWhile (· ≠ '\x00')).map Char.toLower = n.2.toList).map Prod.fst

/-- What `sortCommand` reads from its options; `stores` has the arguments of `STORE` with their
positions, of which the first one is `storekey`. -/
structure SortOptions where
  desc : Bool := false
  alpha : Bool := false
  limitStart : Int := 0
  limitCount : Int := -1
  sortby : Option Sds := none
  dontsort : Bool := false
  gets : List Sds := []
  stores : List (Nat × Sds) := []

/-- The loop of `sortCommand` over the arguments from position `j` on. -/
def parse (cluster : Bool) : Nat → List Sds → SortOptions → Option SortOptions
  | _, [], o => some o
  | j, a :: rest, o =>
    match optOf a with
    | none => none
    | some .asc => parse cluster (j + 1) rest { o with desc := false }
    | some .desc => parse cluster (j + 1) rest { o with desc := true }
    | some .alpha => parse cluster (j + 1) rest { o with alpha := true }
    | some .limit =>
      match rest with
      | start :: count :: rest =>
        match string2ll start, string2ll count with
        | some start, some count =>
          parse cluster (j + 3) rest { o with limitStart := start, limitCount := count }
        | _, _ => none
      | _ => none
    | some opt =>
      match rest with
      | [] => none
      | arg :: rest =>
        match opt with
        | .store => parse cluster (j + 2) rest { o with stores := (j + 1, arg) :: o.stores }
        | .sortBy =>
          let o := { o with sortby := some arg, dontsort := o.dontsort || (strchr arg '*').isNone }
          if cluster && (strchr arg '*').isSome then none else parse cluster (j + 2) rest o
        | _ => if cluster then none else parse cluster (j + 2) rest { o with gets := o.gets ++ [arg] }

/-- The loop of `sortGetKeys`, with the position of the last `STORE` key that was found. -/
def scan : Nat → List Sds → Option Nat → Option Nat
  | _, [], found => found
  | i, a :: rest, found =>
    match optOf a with
    | some .limit => scan (i + 3) (rest.drop 2) found
    | some .get | some .sortBy => scan (i + 2) (rest.drop 1) found
    | some .store => scan (i + 1) rest (if rest = [] then found else some (i + 1))
    | _ => scan (i + 1) rest found
termination_by _ args => args.length
decreasing_by all_goals simp; try omega

def sortGetKeys (argv : List Sds) : List Nat := 1 :: (scan 2 (argv.drop 2) none).toList

/-- `sortGetKeys` takes the argument for the name of an option and skips what follows it, or for
another `STORE`. -/
def misread (a : Sds) : Bool :=
  optOf a ∈ [some Opt.limit, some .store, some .sortBy, some .get]

section

variable {cluster : Bool} {j : Nat} {args : List Sds} {o o' : SortOptions}

theorem stores_subset (h : parse cluster j args o = some o') : o.stores ⊆ o'.stores := by
  fun_induction parse cluster j args o <;> grind

theorem scan_cons (h : misread a = false) : scan j (a :: args) found = scan (j + 1) args found := by
  unfold misread at h
  rw [scan]
  split <;> simp_all

/-- A last argument is passed over, whatever it is. -/
theorem scan_last : scan j [a] found = found := by
  rw [scan]
  split <;> simp [scan]

theorem scan_eq (h : parse cluster j args o = some o')
    (hs : ∀ s ∈ o'.stores, misread s.2 = false ∨ s.1 + 1 = j + args.length) :
    scan j args (o.stores.head?.map Prod.fst) = o'.stores.head?.map Prod.fst := by
  fun_induction parse cluster j args o with
  | case10 j a o key rest _ _ _ _ hopt ih =>
    rw [scan, hopt]
    rcases hs (j + 1, key) (stores_subset h mem_cons_self) with hkey | hlast
    · exact (scan_cons hkey).trans (ih h (by grind))
    obtain rfl : rest = [] := by grind
    cases h
    exact scan_last
  | case14 j a o opt arg rest =>
    obtain rfl : opt = .get := by cases opt <;> simp_all
    grind [scan]
  | _ => grind [scan]

/-- The position of the key that is sorted, and of the one that `sortCommand` stores to. -/
def SortOptions.keys (o : SortOptions) : List Nat := 1 :: (o.stores.head?.map Prod.fst).toList

/-- The argument of `BY` is taken for a `STORE`, or what follows it for the argument of `STORE`. -/
theorem sort_misread (key : Sds) {name : Sds} (h : misread name = true) : ∃ options, ∀ cluster, ∃ o,
    let sort := "sort".toList :: key :: "store".toList :: name :: options
    parse cluster 2 (sort.drop 2) {} = some o ∧ sortGetKeys sort ≠ o.keys := by
  have hstore : optOf "store".toList = some .store := by decide
  have hby : optOf "by".toList = some .sortBy := by decide
  have hasc : optOf "asc".toList = some .asc := by decide
  have hstar : strchr "store".toList '*' = none := by decide
  have hname : optOf name = some .limit ∨ optOf name = some .store ∨ optOf name = some .sortBy ∨
      optOf name = some .get := by
    simpa [misread] using h
  rcases hname with hname | hname
  · refine ⟨["asc".toList, "by".toList, "store".toList, "asc".toList], fun cluster => ?_⟩
    simp only [parse, sortGetKeys, scan, drop_succ_cons, drop_zero, hstore, hby, hasc, hstar, hname]
    simp [SortOptions.keys]
  refine ⟨["by".toList, "store".toList, "asc".toList], fun cluster => ?_⟩
  rcases hname with hname | hname | hname <;>
  · simp only [parse, sortGetKeys, scan, drop_succ_cons, drop_zero, hstore, hby, hasc, hstar, hname]
    simp [SortOptions.keys]

end

/-! ## Numbered keys -/

def isSpace (c : Char) : Bool := c = ' ' || (9 ≤ c.toNat && c.toNat ≤ 13)

/-- The digits from here on. -/
def digits (s : Sds) : Int := Nat.ofDigitChars 10 (s.takeWhile Char.isDigit) 0

def strtol (s : Sds) : Int :=
  match s.dropWhile isSpace with
  | '-' :: s => max (-digits s) (-2 ^ 63)
  | '+' :: s => min (digits s) (2 ^ 63 - 1)
  | s => min (digits s) (2 ^ 63 - 1)

/-- `atoi`: the `long` is converted to an `int`. -/
def atoi (s : Sds) : Int := (strtol s + 2 ^ 31) % 2 ^ 32 - 2 ^ 31

/-- `zmalloc(sizeof(int)*n)`. A negative number gives a size that there is no memory for, and the server
stops. -/
def allocInts (n : Int) : Except Fault (List Nat) :=
  if 0 ≤ n then .ok (replicate n.toNat 0) else .error .assertFailed

/-- `keys[i] = v`. -/
def put (keys : List Nat) (i : Int) (v : Nat) : Except Fault (List Nat) :=
  if 0 ≤ i ∧ i < keys.length then .ok (keys.set i.toNat v) else .error .bufferOverflow

/-- `for (i = 0; i < num; i++) keys[i] = 3+i`. -/
def putFrom (num : Nat) (keys : List Nat) : Except Fault (List Nat) :=
  (range num).foldlM (fun keys (i : Nat) => put keys i (3 + i)) keys

def zunionInterGetKeys (argv : List Sds) : Except Fault (List Nat) :=
  let num := atoi (argv.getD 2 [])
  if num > (argv.length : Int) - 3 then .ok []
  else do
    let keys ← putFrom num.toNat (← allocInts (num + 1))
    put keys num 1

def evalGetKeys (argv : List Sds) : Except Fault (List Nat) :=
  let num := atoi (argv.getD 2 [])
  if num > (argv.length : Int) - 3 then .ok []
  else do putFrom num.toNat (← allocInts num)

theorem putFrom_eq (n k : Nat) :
    putFrom n (replicate (n + k) 0) = .ok ((range n).map (3 + ·) ++ replicate k 0) := by
  induction n generalizing k with
  | zero => simp [putFrom]
  | succ n ih =>
    have h := ih (k + 1)
    rw [putFrom, show n + (k + 1) = n + 1 + k by omega] at h
    rw [putFrom, range_succ, foldlM_append, h, ok_bind, replicate_succ]
    simp [put]

variable {argv : List Sds} {n : Nat} {s : Sds}

section

variable (h : atoi (argv.getD 2 []) = n) (hn : n + 3 ≤ argv.length)
include h hn

theorem zunionInterGetKeys_eq : zunionInterGetKeys argv = .ok ((range n).map (3 + ·) ++ [1]) := by
  unfold zunionInterGetKeys
  dsimp only
  rw [h, if_neg (by omega), allocInts, if_pos (by omega), ok_bind,
    show ((n : Int) + 1).toNat = n + 1 by omega, show (n : Int).toNat = n by omega, putFrom_eq, ok_bind]
  simp [put]

theorem evalGetKeys_eq : evalGetKeys argv = .ok ((range n).map (3 + ·)) := by
  have hput := putFrom_eq n 0
  unfold evalGetKeys
  dsimp only
  rw [h, if_neg (by omega), allocInts, if_pos (by omega), ok_bind, show (n : Int).toNat = n by omega]
  rwa [replicate_zero, append_nil] at hput

end

theorem digits_of_string2ll (h : string2llDigits v s = some w) :
    (∀ c ∈ s, c.isDigit) ∧ w = Nat.ofDigitChars 10 s v := by
  induction s generalizing v with
  | nil => exact ⟨by simp, (Option.some.inj h).symm⟩
  | cons c s ih =>
    unfold string2llDigits at h
    split at h
    · next hc =>
      split at h
      · cases h
      split at h
      · cases h
      obtain ⟨hs, hw⟩ := ih h
      rw [Nat.ofDigitChars_cons, mul_comm 10, hw]
      exact ⟨by simpa [hc] using hs, rfl⟩
    · cases h

/-- A text that `string2ll` accepts has the same value for `atoi`, if it is an `int`. -/
theorem atoi_eq {n : Int} (h : string2ll s = some n) (hn : 0 < n ∧ n < 2 ^ 31) : atoi s = n := by
  unfold string2ll at h
  split at h
  · cases h
    omega
  split at h
  · obtain ⟨v, -, h⟩ := Option.bind_eq_some_iff.mp h
    split at h <;> cases h
    omega
  obtain ⟨v, hv, h⟩ := Option.bind_eq_some_iff.mp h
  split at h <;> cases h
  obtain _ | ⟨c, s⟩ := s
  · cases hv
  rw [string2ull] at hv
  split at hv
  · next hc =>
    obtain ⟨hs, hw⟩ := digits_of_string2ll hv
    have hall : (c :: s).takeWhile Char.isDigit = c :: s :=
      takeWhile_eq_self_iff.mpr (by simpa [hc.1] using hs)
    have hdigits : digits (c :: s) = v := by
      rw [digits, hall, Nat.ofDigitChars_cons, hw, mul_zero, zero_add]
    have hspace : (c :: s).dropWhile isSpace = c :: s := by
      have h48 : 48 ≤ c.toNat := by
        have hc := hc.1
        rw [Char.isDigit, Bool.and_eq_true, decide_eq_true_eq] at hc
        exact UInt32.le_iff_toNat_le.mp hc.1
      have hne : c ≠ ' ' := by
        rintro rfl
        exact absurd h48 (by decide)
      refine dropWhile_cons_of_neg ?_
      simp only [isSpace, hne, decide_false, Bool.false_or, Bool.and_eq_true, decide_eq_true_eq]
      omega
    have hlong : strtol (c :: s) = v := by
      rw [strtol, hspace]
      split
      · next heq => simp_all
      · next heq => simp_all
      rw [hdigits]
      omega
    rw [atoi, hlong]
    omega
  · cases hv

/-- It returns positions of arguments. -/
def Sound (argv : List Sds) (run : Except Fault (List Nat)) : Prop :=
  ∃ keys, run = .ok keys ∧ ∀ k ∈ keys, 1 ≤ k ∧ k < argv.length

theorem sound_iff {run} (hneg : atoi (argv.getD 2 []) < 0 → ∀ keys, run ≠ .ok keys)
    (hbig : atoi (argv.getD 2 []) > (argv.length : Int) - 3 → run = .ok [])
    (hok : ∀ n : Nat, atoi (argv.getD 2 []) = n → n + 3 ≤ argv.length → Sound argv run) :
    Sound argv run ↔ 0 ≤ atoi (argv.getD 2 []) := by
  refine ⟨fun ⟨keys, hkeys, _⟩ => ?_, fun hpos => ?_⟩
  · by_contra h
    exact hneg (by omega) keys hkeys
  by_cases hle : atoi (argv.getD 2 []) > (argv.length : Int) - 3
  · exact ⟨[], hbig hle, by simp⟩
  · exact hok (atoi (argv.getD 2 [])).toNat (by omega) (by omega)

/-- **The keys of commands.** For options that `sortCommand` accepts, the keys are found if no argument
of `STORE` is read as an option, but for a last one, and every argument that is read as one can be
followed by options for which they are not. The functions with a number of keys return positions of
arguments iff the number is not negative for `atoi`, and those of a `ZUNIONSTORE` with a valid number
are right. -/
theorem getKeys_exact (argv : List Sds) : (∀ cluster o, parse cluster 2 (argv.drop 2) {} = some o →
      (∀ s ∈ o.stores, misread s.2 = false ∨ s.1 + 1 = argv.length) → sortGetKeys argv = o.keys) ∧
    (∀ key name, misread name = true → ∃ options, ∀ cluster, ∃ o,
      let sort := "sort".toList :: key :: "store".toList :: name :: options
      parse cluster 2 (sort.drop 2) {} = some o ∧ sortGetKeys sort ≠ o.keys) ∧
    (3 ≤ argv.length → argv.length < 2 ^ 31 →
      (Sound argv (zunionInterGetKeys argv) ↔ 0 ≤ atoi (argv.getD 2 [])) ∧
      (Sound argv (evalGetKeys argv) ↔ 0 ≤ atoi (argv.getD 2 [])) ∧
      ∀ n, string2ll (argv.getD 2 []) = some n → 1 ≤ n → n ≤ argv.length - 3 →
        zunionInterGetKeys argv = .ok ((range n.toNat).map (3 + ·) ++ [1])) := by
  refine ⟨fun cluster o h hs => ?_, fun key name => sort_misread key,
    fun hargc hmax => ⟨?_, ?_, fun n hn h1 hle => ?_⟩⟩
  · refine congrArg (fun k => 1 :: k.toList) (scan_eq h fun s hmem => ?_)
    rcases hd : argv.drop 2 with _ | ⟨a, args⟩
    · rw [hd] at h
      cases h
      cases hmem
    have hlen := congrArg length hd
    have := hs s hmem
    simp at hlen ⊢
    grind
  · refine sound_iff (fun hneg keys hkeys => ?_) (fun hbig => if_pos hbig) fun n hn hle =>
      ⟨_, zunionInterGetKeys_eq hn hle, fun k hk => ?_⟩
    · unfold zunionInterGetKeys at hkeys
      dsimp only at hkeys
      rw [if_neg (by omega)] at hkeys
      simp only [bind_eq_ok, put] at hkeys
      obtain ⟨_, -, _, -, hput⟩ := hkeys
      rw [if_neg (by omega)] at hput
      cases hput
    simp only [mem_append, mem_map, mem_range, mem_singleton] at hk
    obtain ⟨i, hi, rfl⟩ | rfl := hk <;> omega
  · refine sound_iff (fun hneg keys hkeys => ?_) (fun hbig => if_pos hbig) fun n hn hle =>
      ⟨_, evalGetKeys_eq hn hle, fun k hk => ?_⟩
    · unfold evalGetKeys at hkeys
      dsimp only at hkeys
      rw [if_neg (by omega), allocInts, if_neg (by omega)] at hkeys
      cases hkeys
    obtain ⟨i, hi, rfl⟩ := mem_map.mp hk
    have := mem_range.mp hi
    omega
  have hatoi := atoi_eq hn (by omega)
  exact zunionInterGetKeys_eq (by omega) (by omega)

theorem getKeys_exact_store_key :
    sortGetKeys ["sort".toList, ['k'], "store".toList, "get".toList] = [1, 3] ∧
      zunionInterGetKeys ["zunionstore".toList, ['d'], ['1'], ['k']] = .ok [3, 1] :=
  ⟨(getKeys_exact ["sort".toList, ['k'], "store".toList, "get".toList]).1 false
      { stores := [(3, "get".toList)] } rfl (by decide),
    ((getKeys_exact ["zunionstore".toList, ['d'], ['1'], ['k']]).2.2 (by decide) (by decide)).2.2 1 rfl
      (by decide) (by decide)⟩

/-- `SORT k STORE store ASC`, where the last argument is taken for the key, and a number of keys for
which `keys[-1]` is written. -/
theorem getKeys_wrong :
    let sort := ["sort".toList, ['k'], "store".toList, "store".toList, "asc".toList]
    ((parse false 2 (sort.drop 2) {}).map fun o => o.stores.head?.map Prod.fst) = some (some 3) ∧
      sortGetKeys sort = [1, 4] ∧
      zunionInterGetKeys ["zunionstore".toList, ['d'], "-1".toList, ['k']] = .error .bufferOverflow := by
  decide +kernel

end UfsRedis.GetKeys
