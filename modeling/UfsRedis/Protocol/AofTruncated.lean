import UfsRedis.Lib.Frames
import UfsRedis.Protocol.Resp

/-!
# A truncated append only file

With `aof-load-truncated`, `loadAppendOnlyFile` accepts a file that ends in the middle of a command:
it cuts the file after the last command it has executed, and the server appends to what is left. A
log is a sequence of commands and of transactions, each of them `MULTI`, commands and `EXEC`.
-/

namespace UfsRedis.AofLoad

open List Lib Option

/-! ## Reading -/

/-- Where the loading stops: the label `readerr`, with `feof`, the label `fmterr`, or a command that
is not known. -/
inductive LoadError where
  | readerr (feof : Bool)
  | fmterr
  | unknownCommand
  | outOfFuel
  deriving DecidableEq

def loadArg (s : List Char) : Except LoadError (Sds × List Char) :=
  if s = [] then .error (.readerr true)
  else
    let (buf, s) := fgets s
    if buf.head? ≠ some '$' then .error .fmterr
    else
      let len := atoi buf.tail
      -- One of the two `fread` is short, and has met the end of the file.
      if s.length < len + 2 then .error (.readerr true) else .ok (s.take len, s.drop (len + 2))

/-- `argc` arguments are read. -/
def loadArgs : Nat → List Char → Except LoadError (List Sds × List Char)
  | 0, s => .ok ([], s)
  | argc + 1, s => do
    let (o, s) ← loadArg s
    let (argv, s) ← loadArgs argc s
    .ok (o :: argv, s)

/-- A command is read. `fgets` meets the end of the file where there is no end of a line. -/
def loadCommand (s : List Char) : Except LoadError (List Sds × List Char) :=
  let (buf, t) := fgets s
  if buf.head? ≠ some '*' then .error .fmterr
  else if buf.tail.headD '\x00' = '\x00' then .error (.readerr (!s.contains '\n'))
  else
    let argc := atoi buf.tail
    if argc < 1 then .error .fmterr else loadArgs argc t

/-! ## Loading -/

/-- The procedures of the commands: those that change `CLIENT_MULTI`, and those that access the
data. -/
inductive Proc where
  | multi
  | exec
  | discard
  | data
  deriving DecidableEq

/-- The fake client's `CLIENT_MULTI`, `valid_up_to`, and the commands on the data that have been
executed. -/
structure Loader where
  multi : Bool
  validUpTo : Nat
  executed : List (List Sds)

/-- `cmd->proc(fakeClient)`. The commands after `MULTI` are not queued: `EXEC` finds no command. -/
def Loader.call (l : Loader) (argv : List Sds) : Proc → Loader
  | .multi => { l with multi := true }
  | .exec => { l with multi := false }
  | .discard => { l with multi := false }
  | .data => { l with executed := l.executed ++ [argv] }

/-- `C_ERR` for an empty file, `C_OK` with what is left of the file and what has been executed, and
`exit(1)`. The loading of an RDB preamble is not followed. -/
inductive Loaded where
  | empty
  | preamble
  | ok (left : List Char) (executed : List (List Sds))
  | exit
  deriving DecidableEq

def Loaded.executed : Loaded → Option (List (List Sds))
  | .empty => some []
  | .ok _ executed => some executed
  | .preamble => none
  | .exit => none

section

variable (lookupCommand : Sds → Option Proc) (aofLoadTruncated : Bool)

/-- The loop of `loadAppendOnlyFile`. -/
def loadLoop (file : List Char) : Nat → Loader → List Char → Except (LoadError × Loader) Loader
  | 0, l, _ => .error (.outOfFuel, l)
  | fuel + 1, l, s =>
    if s = [] then .ok l
    else
      match loadCommand s with
      | .error e => .error (e, l)
      | .ok (argv, s) =>
        match lookupCommand (argv.headD []) with
        | none => .error (.unknownCommand, l)
        | some proc =>
          let l := l.call argv proc
          loadLoop file fuel
            (if aofLoadTruncated then { l with validUpTo := file.length - s.length } else l) s

/-- The label `uxeof`: `truncate` at `valid_up_to`. -/
def uxeof (file : List Char) (l : Loader) : Loaded :=
  if aofLoadTruncated then .ok (file.take l.validUpTo) l.executed else .exit

def loadAppendOnlyFile (file : List Char) : Loaded :=
  if file = [] then .empty
  else if file.take 5 = ['R', 'E', 'D', 'I', 'S'] then .preamble
  else
    match loadLoop lookupCommand aofLoadTruncated file (file.length + 1) ⟨false, 0, []⟩ file with
    | .ok l => if l.multi then uxeof aofLoadTruncated file l else .ok file l.executed
    | .error (.readerr true, l) => uxeof aofLoadTruncated file l
    | .error _ => .exit

end

/-! ## The log -/

/-- A command, or a transaction with the commands that begin and end it. -/
inductive Entry where
  | command (argv : List Sds)
  | transaction (multi : List Sds) (commands : List (List Sds)) (exec : List Sds)

namespace Entry

def commands : Entry → List (List Sds)
  | command argv => [argv]
  | transaction multi cmds exec => multi :: (cmds ++ [exec])

def bytes (e : Entry) : List Char := e.commands.flatMap resp

def data : Entry → List (List Sds)
  | command argv => [argv]
  | transaction _ cmds _ => cmds

end Entry

section

variable (lookupCommand : Sds → Option Proc)

/-- `argv` is a command with the procedure `proc`. -/
def HasProc (proc : Proc) (argv : List Sds) : Prop :=
  argv ≠ [] ∧ lookupCommand (argv.headD []) = some proc

instance (proc : Proc) (argv : List Sds) : Decidable (HasProc lookupCommand proc argv) :=
  inferInstanceAs (Decidable (_ ∧ _))

def Entry.WellFormed : Entry → Prop
  | .command argv => HasProc lookupCommand .data argv
  | .transaction multi cmds exec =>
    HasProc lookupCommand .multi multi ∧ (∀ argv ∈ cmds, HasProc lookupCommand .data argv) ∧
      HasProc lookupCommand .exec exec

instance : DecidablePred (Entry.WellFormed lookupCommand)
  | .command _ => inferInstanceAs (Decidable (HasProc _ _ _))
  | .transaction _ _ _ => inferInstanceAs (Decidable (_ ∧ _ ∧ _))

end

/-- The commands of the transaction that the cut falls into, after its `MULTI`, that are
complete. -/
def interrupted (log : List Entry) (n : Nat) : List (List Sds) :=
  (torn Entry.bytes log n).elim [] fun p => (whole resp p.1.commands p.2).drop 1

variable {argv : List Sds} {lookupCommand : Sds → Option Proc}

/-! ## A command that is complete, and one that is cut -/

section

variable {s : List Char} {c : Char} {k n : Nat}

theorem loadArg_of_readArg (h : readArg s = some r) : loadArg s = .ok r := by
  have hne : s ≠ [] := by
    rintro rfl
    exact absurd h (by simp [readArg, fgets])
  unfold readArg at h
  unfold loadArg
  rw [if_neg hne]
  dsimp only at h ⊢
  split at h
  · exact absurd h (by simp)
  next hhead =>
  rw [if_neg hhead]
  split at h
  · exact absurd h (by simp)
  next hlen =>
  rw [if_neg hlen, some.inj h]

variable {r : List Sds × List Char}

theorem loadArgs_of_readArgs (h : readArgs argc s = some r) : loadArgs argc s = .ok r := by
  induction argc generalizing s r with
  | zero => rw [loadArgs, some.inj h]
  | succ argc ih =>
    unfold readArgs at h
    obtain ⟨⟨o, s1⟩, harg, h⟩ := Option.bind_eq_some_iff.mp h
    obtain ⟨⟨argv, s2⟩, hargs, h⟩ := Option.bind_eq_some_iff.mp h
    unfold loadArgs
    rw [loadArg_of_readArg harg, ok_bind]
    dsimp only
    rw [ih hargs, ok_bind, ← some.inj h]

theorem atoi_eq_zero (h : s.headD '\x00' = '\x00') : atoi s = 0 := by
  obtain _ | ⟨c, s⟩ := s
  · rfl
  obtain rfl : c = '\x00' := h
  unfold atoi
  rw [dropWhile_cons_of_neg (by decide), takeWhile_cons_of_neg (by decide)]
  rfl

theorem loadCommand_of_readCommand (h : readCommand s = some r) : loadCommand s = .ok r := by
  unfold readCommand at h
  unfold loadCommand
  dsimp only at h ⊢
  split at h
  · exact absurd h (by simp)
  next hhead =>
  split at h
  · exact absurd h (by simp)
  next hargc =>
  have htail : (fgets s).1.tail.headD '\x00' ≠ '\x00' := fun heq =>
    hargc (by rw [atoi_eq_zero heq]; omega)
  rw [if_neg hhead, if_neg htail, if_neg hargc, loadArgs_of_readArgs h]

theorem loadCommand_resp (hargv : argv ≠ []) : loadCommand (resp argv ++ s) = .ok (argv, s) :=
  loadCommand_of_readCommand (readCommand_resp hargv)

theorem fgets_of_notMem (h : '\n' ∉ s) : fgets s = (s, []) := by
  unfold fgets
  rw [idxOf_eq_length h, take_of_length_le (by omega), drop_of_length_le (by omega)]

theorem notMem_take_lenHeader (hc : c ≠ '\n') (hk : k < (lenHeader c n).length) :
    '\n' ∉ (lenHeader c n).take k := by
  have hsplit : lenHeader c n = (c :: (ll2string n ++ ['\r'])) ++ ['\n'] := by
    simp [lenHeader, crlf]
  rw [hsplit] at hk ⊢
  rw [take_append_of_le_length (by simpa using Nat.le_of_lt_succ hk)]
  intro h
  have := mem_of_mem_take h
  simp [not_mem_ll2string (c := '\n') (by decide), hc.symm] at this

theorem loadArg_take (hk : k < (respArg o).length) :
    loadArg ((respArg o).take k) = .error (.readerr true) := by
  rcases Nat.eq_zero_or_pos k with rfl | hpos
  · rfl
  have hne : (respArg o).take k ≠ [] := by
    rw [← length_pos_iff, length_take]
    omega
  unfold loadArg
  rw [if_neg hne]
  unfold respArg at hk ⊢
  rw [append_assoc] at hk ⊢
  rw [take_append]
  by_cases hline : k < (lenHeader '$' o.length).length
  · -- The line of the length is cut: it is the rest of the file, and no argument follows.
    rw [Nat.sub_eq_zero_of_le (le_of_lt hline), take_zero, append_nil,
      fgets_of_notMem (notMem_take_lenHeader (by decide) hline)]
    have hhead : ((lenHeader '$' o.length).take k).head? = some '$' := by
      obtain ⟨k, rfl⟩ : ∃ j, k = j + 1 := ⟨k - 1, by omega⟩
      rfl
    dsimp only
    rw [if_neg (not_not.mpr hhead), if_pos (by simp)]
  rw [take_of_length_le (by omega), fgets_lenHeader (by decide)]
  dsimp only
  have htail : atoi (lenHeader '$' o.length).tail = o.length := atoi_ll2string
  have hshort : ((o ++ crlf).take (k - (lenHeader '$' o.length).length)).length
      < o.length + 2 := by
    rw [length_append] at hk
    have : (o ++ crlf).length = o.length + 2 := by simp [crlf]
    rw [length_take]
    omega
  rw [if_neg (by simp [lenHeader]), htail, if_pos hshort]

theorem loadArg_respArg (o : Sds) : loadArg (respArg o ++ s) = .ok (o, s) :=
  loadArg_of_readArg (readArg_respArg o)

theorem loadArgs_take (hk : k < (argv.flatMap respArg).length) :
    loadArgs argv.length ((argv.flatMap respArg).take k) = .error (.readerr true) := by
  induction argv generalizing k with
  | nil => exact absurd hk (by simp)
  | cons o argv ih =>
    rw [flatMap_cons] at hk ⊢
    rw [length_append] at hk
    rw [length_cons, loadArgs, take_append]
    by_cases ho : k < (respArg o).length
    · rw [Nat.sub_eq_zero_of_le (le_of_lt ho), take_zero, append_nil, loadArg_take ho, error_bind]
    rw [take_of_length_le (by omega), loadArg_respArg, ok_bind]
    dsimp only
    rw [ih (by omega), error_bind]

theorem one_le_atoi_take (hn : 0 < n) (hk : 0 < k) : 1 ≤ atoi ((ll2string n ++ crlf).take k) := by
  obtain ⟨d, ds, heq, hd⟩ := exists_ll2string_eq_cons hn
  have hdigit : d.isDigit = true := isDigit_of_mem_ll2string (heq ▸ mem_cons_self)
  obtain ⟨k, rfl⟩ : ∃ j, k = j + 1 := ⟨k - 1, by omega⟩
  have hval : 1 ≤ d.toNat - '0'.toNat := by
    have hzero : d.toNat ≠ '0'.toNat := fun h => hd (Char.toNat_inj.mp h)
    have hle : '0'.toNat ≤ d.toNat := by
      rw [Char.isDigit, Bool.and_eq_true, decide_eq_true_eq] at hdigit
      exact hdigit.1
    omega
  unfold atoi
  rw [heq, cons_append, take_succ_cons, dropWhile_cons_of_neg (by simp [not_isWhitespace hdigit]),
    takeWhile_cons_of_pos hdigit, Nat.ofDigitChars_cons]
  exact le_trans (by omega) (le_ofDigitChars _ _)

theorem loadCommand_take (hargv : argv ≠ []) (hpos : 0 < k) (hk : k < (resp argv).length) :
    loadCommand ((resp argv).take k) = .error (.readerr true) := by
  have hargc : 0 < argv.length := length_pos_iff.mpr hargv
  unfold loadCommand
  unfold resp at hk ⊢
  rw [take_append]
  by_cases hline : k < (lenHeader '*' argv.length).length
  · have hend := notMem_take_lenHeader (by decide) hline
    rw [Nat.sub_eq_zero_of_le (le_of_lt hline), take_zero, append_nil, fgets_of_notMem hend]
    obtain ⟨k, rfl⟩ : ∃ j, k = j + 1 := ⟨k - 1, by omega⟩
    have hhead : ((lenHeader '*' argv.length).take (k + 1)).head? = some '*' := rfl
    have htail : ((lenHeader '*' argv.length).take (k + 1)).tail =
        (ll2string argv.length ++ crlf).take k := rfl
    dsimp only
    rw [if_neg (not_not.mpr hhead), htail]
    rcases Nat.eq_zero_or_pos k with rfl | hk'
    · -- The `*` alone.
      rw [if_pos (by simp)]
      have : ((lenHeader '*' argv.length).take (0 + 1)).contains '\n' = false := by
        simpa using hend
      rw [this]
      rfl
    have hone := one_le_atoi_take hargc hk'
    have hfirst : ((ll2string argv.length ++ crlf).take k).headD '\x00' ≠ '\x00' := fun heq => by
      rw [atoi_eq_zero heq] at hone
      omega
    rw [if_neg hfirst, if_neg (by omega)]
    obtain ⟨argc, heq⟩ : ∃ m, atoi ((ll2string argv.length ++ crlf).take k) = m + 1 :=
      ⟨_, (Nat.sub_add_cancel hone).symm⟩
    rw [heq]
    rfl
  rw [take_of_length_le (by omega), fgets_lenHeader (by decide)]
  dsimp only
  have htail : (lenHeader '*' argv.length).tail = ll2string argv.length ++ crlf := rfl
  have hfirst : (ll2string argv.length ++ crlf).headD '\x00' ≠ '\x00' := fun heq => by
    have := atoi_eq_zero heq
    rw [atoi_ll2string] at this
    omega
  rw [length_append] at hk
  rw [if_neg (by simp [lenHeader]), htail, if_neg hfirst, atoi_ll2string, if_neg (by omega),
    loadArgs_take (by omega)]

end

/-! ## A file that is cut -/

section

variable {file rest : List Char} {cmds : List (List Sds)}

/-- The commands that are known, and the data commands among them. -/
def Known (lookupCommand : Sds → Option Proc) (argv : List Sds) : Prop :=
  argv ≠ [] ∧ (lookupCommand (argv.headD [])).isSome

def isData (lookupCommand : Sds → Option Proc) (argv : List Sds) : Bool :=
  lookupCommand (argv.headD []) = some .data

theorem Loader.call_executed (l : Loader) (h : lookupCommand (argv.headD []) = some proc) :
    (l.call argv proc).executed = l.executed ++ [argv].filter (isData lookupCommand) := by
  have hdata : isData lookupCommand argv = decide (some proc = some Proc.data) := by
    rw [isData, h]
  rw [filter_cons, hdata]
  cases proc <;> simp [Loader.call]

theorem loadLoop_flatMap (hcmds : ∀ argv ∈ cmds, Known lookupCommand argv) (fuel : Nat)
    (hl : l.validUpTo = file.length - (cmds.flatMap resp ++ rest).length) :
    ∃ m, loadLoop lookupCommand true file (cmds.length + fuel) l (cmds.flatMap resp ++ rest) =
      loadLoop lookupCommand true file fuel
        ⟨m, file.length - rest.length, l.executed ++ cmds.filter (isData lookupCommand)⟩ rest := by
  induction cmds generalizing l with
  | nil =>
    refine ⟨l.multi, ?_⟩
    obtain ⟨m, v, x⟩ := l
    obtain rfl : v = file.length - rest.length := hl
    simp
  | cons argv cmds ih =>
    obtain ⟨hne, hknown⟩ := hcmds argv mem_cons_self
    obtain ⟨proc, hproc⟩ := Option.isSome_iff_exists.mp hknown
    have hfuel : (argv :: cmds).length + fuel = (cmds.length + fuel) + 1 := by
      rw [length_cons]
      omega
    obtain ⟨m, hm⟩ := ih (fun a ha => hcmds a (mem_cons_of_mem _ ha))
      (l := { l.call argv proc with
        validUpTo := file.length - (cmds.flatMap resp ++ rest).length }) rfl
    refine ⟨m, ?_⟩
    rw [hfuel, flatMap_cons, append_assoc, loadLoop, if_neg (by simp [resp_ne_nil]),
      loadCommand_resp hne]
    dsimp only
    rw [hproc]
    dsimp only
    rw [if_pos rfl, hm, l.call_executed hproc, append_assoc, ← filter_append]
    rfl

/-- The end of a file: it ends with a command, or in the middle of one. -/
def Short (rest : List Char) : Prop := rest = [] ∨ loadCommand rest = .error (.readerr true)

theorem Short.no_preamble (hrest : Short rest) (hne : cmds.flatMap resp ++ rest ≠ []) :
    (cmds.flatMap resp ++ rest).take 5 ≠ ['R', 'E', 'D', 'I', 'S'] := by
  intro h
  have hhead : (cmds.flatMap resp ++ rest).head? = some 'R' := by
    have htake := head?_take (l := cmds.flatMap resp ++ rest) (i := 5)
    rw [h] at htake
    exact htake.symm
  cases cmds with
  | cons argv cmds => exact absurd hhead (by simp [resp, lenHeader])
  | nil =>
    rcases hrest with rfl | hrest
    · exact hne rfl
    obtain _ | ⟨c, rest⟩ := rest
    · exact hne rfl
    obtain rfl : c = 'R' := some.inj hhead
    have : loadCommand ('R' :: rest) = .error .fmterr := by
      unfold loadCommand fgets
      rw [take_succ_cons]
      rfl
    rw [this] at hrest
    exact absurd hrest (by decide)

theorem loadAppendOnlyFile_cut (hcmds : ∀ argv ∈ cmds, Known lookupCommand argv)
    (hrest : Short rest) (hne : cmds.flatMap resp ++ rest ≠ []) :
    loadAppendOnlyFile lookupCommand true (cmds.flatMap resp ++ rest) =
      .ok (cmds.flatMap resp) (cmds.filter (isData lookupCommand)) := by
  generalize hfile : cmds.flatMap resp ++ rest = file at hne ⊢
  have hpre : file.take 5 ≠ ['R', 'E', 'D', 'I', 'S'] := hfile ▸ hrest.no_preamble (hfile ▸ hne)
  have hlen : cmds.length ≤ file.length := by
    rw [← hfile, length_append]
    have := length_le_flatMap_resp cmds
    omega
  have htake : file.take (file.length - rest.length) = cmds.flatMap resp := by
    rw [← hfile, length_append, Nat.add_sub_cancel, take_left]
  have hzero : 0 = file.length - (cmds.flatMap resp ++ rest).length := by rw [hfile, Nat.sub_self]
  obtain ⟨m, hm⟩ := loadLoop_flatMap hcmds (file.length - cmds.length + 1) (l := ⟨false, 0, []⟩) hzero
  rw [hfile, show cmds.length + (file.length - cmds.length + 1) = file.length + 1 by omega] at hm
  unfold loadAppendOnlyFile
  rw [if_neg hne, if_neg hpre, hm, loadLoop, nil_append]
  rcases hrest with rfl | hrest
  · rw [if_pos rfl]
    have hfile' : cmds.flatMap resp = file := by rw [← hfile, append_nil]
    dsimp only
    split
    · rw [uxeof, if_pos rfl, htake]
    · rw [hfile']
  have hne' : rest ≠ [] := by
    rintro rfl
    exact absurd hrest (by decide)
  rw [if_neg hne', hrest]
  dsimp only
  rw [uxeof, if_pos rfl, htake]

end

/-! ## Recovery -/

section

variable {log : List Entry} {e : Entry} {n : Nat} {proc : Proc} {cmds : List (List Sds)}

theorem HasProc.known (h : HasProc lookupCommand proc argv) : Known lookupCommand argv :=
  ⟨h.1, by rw [h.2]; rfl⟩

theorem Entry.WellFormed.known (he : e.WellFormed lookupCommand) (h : argv ∈ e.commands) :
    Known lookupCommand argv := by
  cases e with
  | command a =>
    obtain rfl := mem_singleton.mp h
    exact HasProc.known he
  | transaction multi cmds exec =>
    obtain ⟨hmulti, hcmds, hexec⟩ := he
    rcases mem_cons.mp h with rfl | h
    · exact hmulti.known
    rcases mem_append.mp h with h | h
    · exact (hcmds argv h).known
    obtain rfl := mem_singleton.mp h
    exact hexec.known

theorem filter_isData (h : ∀ argv ∈ cmds, HasProc lookupCommand .data argv) :
    cmds.filter (isData lookupCommand) = cmds :=
  filter_eq_self.mpr fun argv hargv => decide_eq_true (h argv hargv).2

theorem not_isData (h : HasProc lookupCommand proc argv) (hproc : proc ≠ .data) :
    ¬ isData lookupCommand argv = true := by
  unfold isData
  rw [h.2]
  simpa using hproc

theorem Entry.WellFormed.filter_commands (he : e.WellFormed lookupCommand) :
    e.commands.filter (isData lookupCommand) = e.data := by
  cases e with
  | command argv =>
    refine filter_isData fun a ha => ?_
    obtain rfl := mem_singleton.mp ha
    exact he
  | transaction multi cmds exec =>
    obtain ⟨hmulti, hcmds, hexec⟩ := he
    show (multi :: (cmds ++ [exec])).filter _ = cmds
    rw [filter_cons_of_neg (not_isData hmulti (by decide)), filter_append, filter_isData hcmds,
      filter_cons_of_neg (not_isData hexec (by decide)), filter_nil, append_nil]

theorem Entry.WellFormed.filter_whole (he : e.WellFormed lookupCommand) (hk : k < e.bytes.length) :
    (whole resp e.commands k).filter (isData lookupCommand) = (whole resp e.commands k).drop 1 := by
  cases e with
  | command argv =>
    have : ¬ (resp argv).length ≤ k := by simpa [bytes, commands] using hk
    rw [commands, whole, if_neg this]
    rfl
  | transaction multi cmds exec =>
    obtain ⟨hmulti, hcmds, hexec⟩ := he
    have hlen : k < (resp multi).length + ((cmds.flatMap resp).length + (resp exec).length) := by
      simpa [bytes, commands] using hk
    rw [commands, whole]
    split
    · next hfirst =>
      rw [filter_cons_of_neg (not_isData hmulti (by decide)), drop_succ_cons, drop_zero]
      refine filter_isData fun argv hargv => hcmds argv ?_
      -- The `EXEC` is not complete.
      rw [whole_append] at hargv
      split at hargv
      · rw [whole, if_neg (by omega), append_nil] at hargv
        exact hargv
      · exact mem_of_mem_whole hargv
    · rfl

theorem flatMap_filter_commands (hlog : ∀ e ∈ log, e.WellFormed lookupCommand) :
    (log.flatMap Entry.commands).filter (isData lookupCommand) = log.flatMap Entry.data := by
  rw [filter_flatMap]
  exact flatMap_congr fun e he => (hlog e he).filter_commands

theorem flatMap_bytes (log : List Entry) :
    log.flatMap Entry.bytes = (log.flatMap Entry.commands).flatMap resp :=
  flatMap_assoc.symm

section

variable (hlog : ∀ e ∈ log, e.WellFormed lookupCommand)
include hlog

theorem known_of_mem : ∀ argv ∈ log.flatMap Entry.commands, Known lookupCommand argv := by
  intro argv h
  obtain ⟨e, he, hargv⟩ := mem_flatMap.mp h
  exact (hlog e he).known hargv

theorem exists_short (n : Nat) : ∃ rest, Short rest ∧ (log.flatMap Entry.bytes).take n =
      (whole resp (log.flatMap Entry.commands) n).flatMap resp ++ rest := by
  rw [flatMap_bytes, take_flatMap]
  refine ⟨_, ?_, rfl⟩
  rcases htorn : torn resp (log.flatMap Entry.commands) n with _ | p
  · exact .inl rfl
  obtain ⟨argv, k⟩ := p
  obtain ⟨hmem, hk⟩ := torn_eq_some htorn
  rcases Nat.eq_zero_or_pos k with rfl | hpos
  · exact .inl rfl
  · exact .inr (loadCommand_take (known_of_mem hlog argv hmem).1 hpos hk)

/-- The data commands that are complete: those of the complete entries, and those that are left of a
transaction. -/
theorem filter_whole_flatMap (n : Nat) :
    (whole resp (log.flatMap Entry.commands) n).filter (isData lookupCommand) =
      (whole Entry.bytes log n).flatMap Entry.data ++ interrupted log n := by
  rw [whole_flatMap, filter_append]
  show ((whole Entry.bytes log n).flatMap Entry.commands).filter _ ++
    List.filter _ ((torn Entry.bytes log n).elim [] _) = _
  rw [flatMap_filter_commands fun e he => hlog e (mem_of_mem_whole he)]
  unfold interrupted
  rcases htorn : torn Entry.bytes log n with _ | p
  · rfl
  obtain ⟨hmem, hk⟩ := torn_eq_some htorn
  exact congrArg _ ((hlog p.1 hmem).filter_whole hk)

end

theorem executed_append (hcmds : ∀ argv ∈ cmds, Known lookupCommand argv)
    {more : List Entry} (hmore : ∀ e ∈ more, e.WellFormed lookupCommand) :
    (loadAppendOnlyFile lookupCommand true
      (cmds.flatMap resp ++ more.flatMap Entry.bytes)).executed =
        some (cmds.filter (isData lookupCommand) ++ more.flatMap Entry.data) := by
  rw [flatMap_bytes, ← flatMap_append, ← flatMap_filter_commands hmore, ← filter_append]
  have hknown : ∀ argv ∈ cmds ++ more.flatMap Entry.commands, Known lookupCommand argv := by
    intro argv h
    rcases mem_append.mp h with h | h
    · exact hcmds argv h
    · exact known_of_mem hmore argv h
  generalize cmds ++ more.flatMap Entry.commands = all at hknown ⊢
  obtain _ | ⟨argv, all⟩ := all
  · rfl
  have hne : (argv :: all).flatMap resp ++ [] ≠ [] := by simp [resp_ne_nil]
  have hload := loadAppendOnlyFile_cut hknown (.inl rfl) hne
  rw [append_nil] at hload
  rw [hload]
  rfl

/-- A log is cut at any byte and loaded, and a second log is appended to what is left. The next load
executes the complete commands and transactions and then the second log, if and only if no command
of the transaction that has been cut is complete. -/
theorem recovered_iff (hlog : ∀ e ∈ log, e.WellFormed lookupCommand) (n : Nat) {left : List Char}
    {executed : List (List Sds)}
    (hload : loadAppendOnlyFile lookupCommand true ((log.flatMap Entry.bytes).take n) =
      .ok left executed) : (∀ more : List Entry, (∀ e ∈ more, e.WellFormed lookupCommand) →
      (loadAppendOnlyFile lookupCommand true (left ++ more.flatMap Entry.bytes)).executed =
        some ((whole Entry.bytes log n).flatMap Entry.data ++ more.flatMap Entry.data)) ↔
      interrupted log n = [] := by
  have hknown : ∀ argv ∈ whole resp (log.flatMap Entry.commands) n, Known lookupCommand argv :=
    fun argv h => known_of_mem hlog argv (mem_of_mem_whole h)
  obtain ⟨rest, hrest, htake⟩ := exists_short hlog n
  have hne : (whole resp (log.flatMap Entry.commands) n).flatMap resp ++ rest ≠ [] := by
    rw [← htake]
    intro hnil
    rw [hnil] at hload
    exact absurd hload (by simp [loadAppendOnlyFile])
  rw [htake, loadAppendOnlyFile_cut hknown hrest hne] at hload
  injection hload with hleft
  subst hleft
  constructor
  · intro h
    have := h [] (by simp)
    rw [executed_append hknown (by simp), filter_whole_flatMap hlog, some.injEq,
      append_assoc, append_cancel_left_eq] at this
    simpa using this
  intro h more hmore
  rw [executed_append hknown hmore, filter_whole_flatMap hlog, h, append_nil]

end

def threeCommands (name : Sds) : Option Proc :=
  if name.map Char.toUpper = ['M', 'U', 'L', 'T', 'I'] then some .multi
  else if name.map Char.toUpper = ['E', 'X', 'E', 'C'] then some .exec
  else if name.map Char.toUpper = ['S', 'E', 'T'] then some .data
  else none

/-- `SET key value`. -/
def set (key value : Char) : List Sds := [['S', 'E', 'T'], [key], [value]]

/-- `MULTI`, `SET a 1`, `EXEC`. -/
def setInMulti : Entry :=
  .transaction [['M', 'U', 'L', 'T', 'I']] [set 'a' '1'] [['E', 'X', 'E', 'C']]

/-- A file that is cut in the command after a transaction. -/
theorem recovered_iff_after_exec :
    (∀ more : List Entry, (∀ e ∈ more, e.WellFormed threeCommands) →
      (loadAppendOnlyFile threeCommands true
        (setInMulti.bytes ++ more.flatMap Entry.bytes)).executed =
          some ([set 'a' '1'] ++ more.flatMap Entry.data)) ↔
      interrupted [setInMulti, .command (set 'b' '2')] 70 = [] := by
  have hlog : ∀ e ∈ [setInMulti, .command (set 'b' '2')], e.WellFormed threeCommands := by decide
  have hload : loadAppendOnlyFile threeCommands true
      (([setInMulti, .command (set 'b' '2')].flatMap Entry.bytes).take 70) =
        .ok setInMulti.bytes [set 'a' '1'] := by decide +kernel
  exact recovered_iff hlog 70 hload

/-- A transaction is cut in the second of its two commands. After `SET c 3` has been appended to
what is left, the first command of the transaction is executed. -/
theorem half_transaction_executed :
    ∃ log : List Entry, (∀ e ∈ log, e.WellFormed threeCommands) ∧ ∃ n left executed,
      loadAppendOnlyFile threeCommands true ((log.flatMap Entry.bytes).take n) = .ok left executed ∧
      whole Entry.bytes log n = [] ∧
      (loadAppendOnlyFile threeCommands true
        (left ++ [Entry.command (set 'c' '3')].flatMap Entry.bytes)).executed =
          some [set 'a' '1', set 'c' '3'] := by
  refine ⟨[.transaction [['M', 'U', 'L', 'T', 'I']] [set 'a' '1', set 'b' '2']
    [['E', 'X', 'E', 'C']]], by decide, 50, _, _, rfl, ?_, ?_⟩
  · decide +kernel
  · decide +kernel

end UfsRedis.AofLoad
