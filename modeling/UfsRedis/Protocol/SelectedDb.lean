import UfsRedis.Keyspace.Databases
import UfsRedis.Protocol.Psync
import UfsRedis.Protocol.Fragments

/-!
# The database of a propagated command

`propagate` hands the database of a command to `replicationFeedSlaves`, which writes the command and
no `SELECT`. A slave executes the commands that it parses in the database that is selected on the
link, which is database 0 at first.

`same_database_iff` connects both ends: the commands are written at a server, any fragments of what
is queued for a slave are read by `readQueryFromClient`, and the slave executes the commands.
-/

namespace UfsRedis.Repl

open List

/-! ## The master -/

/-- A command that is executed in the database `dictid`. -/
structure Write where
  dictid : Nat
  argv : List Sds
  deriving DecidableEq, Repr

/-- `propagate` to the slaves. `replicationFeedSlaves` does not read `dictid`. -/
def Server.propagate (m : Server) (w : Write) : Server := m.replicationFeedSlaves w.argv

def Server.propagateAll (m : Server) (ws : List Write) : Server := ws.foldl Server.propagate m

/-! ## The slave -/

/-- The command is `SELECT`. -/
def isSelect (argv : List Sds) : Bool :=
  (argv.headD []).map Char.toLower == ['s', 'e', 'l', 'e', 'c', 't']

/-- `selectCommand`: the database after it. A wrong number of arguments, a text that is no number
and a number out of range leave it as it is. -/
def selectCommand (dbnum db : Nat) (argv : List Sds) : Nat :=
  match argv with
  | [_, arg] => ((string2ll arg).bind (selectTarget dbnum)).getD db
  | _ => db

/-- The commands that a slave executes, each with the database that is selected. -/
def execute (dbnum : Nat) : Nat → List (List Sds) → List Write
  | _, [] => []
  | db, argv :: cmds =>
    if isSelect argv then execute dbnum (selectCommand dbnum db argv) cmds
    else ⟨db, argv⟩ :: execute dbnum db cmds

/-! ## Both ends -/

theorem propagateAll_eq_run (m : Server) (ws : List Write) :
    m.propagateAll ws = m.run (ws.map fun w => .feedSlaves w.argv) := by
  unfold Server.propagateAll Server.run
  rw [foldl_map]
  rfl

theorem execute_eq
    (h : ∀ argv ∈ cmds, isSelect argv = false) : execute dbnum db cmds = cmds.map (⟨db, ·⟩) := by
  induction cmds with
  | nil => rfl
  | cons argv cmds ih =>
    rw [execute, if_neg (by simp [h argv mem_cons_self]),
      ih fun a ha => h a (mem_cons_of_mem argv ha), map_cons]

theorem Server.Fed.propagateAll {m : Server} (hm : m.Ok) {i : Nat} {c : Link} (hc : m.Fed i c)
    (ws : List Write) :
    ∃ c', (m.propagateAll ws).link i = some c' ∧ c.since c' = (ws.map (·.argv)).flatMap resp := by
  rw [propagateAll_eq_run]
  have hkept : ∀ e ∈ ws.map fun w => Event.feedSlaves w.argv, e ≠ .freeClient i := by simp
  obtain ⟨c', hc', hout, -⟩ := hc.run hm hkept
  refine ⟨c', hc'.1, ?_⟩
  rw [Link.since, hout, drop_left, flatMap_map, flatMap_map]
  rfl

/-- **The database of a command.** Commands are executed at a server, and a slave reads what is
queued for it in any fragments: it executes each command in the database of the server exactly if
all of them were executed in database 0. -/
theorem same_database_iff {id₀ : Sds} {size : Nat} {hsize : 0 < size} {offset₀ : Int}
    {es : List Event} {m : Server} (hm : m = (Server.boot id₀ size hsize offset₀).run es) {i : Nat}
    {c c' : Link} (hc : m.Fed i c) {ws : List Write} {maxBulk dbnum : Nat} (hmax : maxBulk < 2 ^ 63)
    (hws : ∀ w ∈ ws, Input.Accepted maxBulk w.argv ∧ isSelect w.argv = false)
    (hc' : (m.propagateAll ws).link i = some c')
    {processInlineBuffer : Input.Reader → Input.Reader × Bool} {reads : List Sds}
    (hflat : reads.flatten = c.since c')
    (hreads : Input.ReadsFit processInlineBuffer maxBulk .fresh reads) :
    ∃ cmds, Input.readAll processInlineBuffer maxBulk .fresh reads = .ok (.fresh, cmds) ∧
      (execute dbnum 0 cmds = ws ↔ ∀ w ∈ ws, w.dictid = 0) := by
  have hok : m.Ok := hm ▸ (Server.boot_ok id₀ size hsize offset₀).run es
  obtain ⟨c'', hlink, hsince⟩ := hc.propagateAll hok ws
  obtain rfl : c'' = c' := Option.some.inj (hlink.symm.trans hc')
  refine ⟨ws.map (·.argv), ?_, ?_⟩
  · apply Input.readAll_commands processInlineBuffer hmax
    · intro argv hargv
      obtain ⟨w, hw, rfl⟩ := mem_map.mp hargv
      exact (hws w hw).1
    · rw [hflat, hsince]
    · exact hreads
  have hsel : ∀ argv ∈ ws.map (·.argv), isSelect argv = false := by
    intro argv hargv
    obtain ⟨w, hw, rfl⟩ := mem_map.mp hargv
    exact (hws w hw).2
  rw [execute_eq hsel, map_map]
  constructor
  · intro h w hw
    rw [← h] at hw
    obtain ⟨w', -, rfl⟩ := mem_map.mp hw
    rfl
  intro h
  refine (map_congr_left fun w hw => ?_).trans (map_id ws)
  show (⟨0, w.argv⟩ : Write) = w
  rw [← h w hw]

/-- `SET k v`. -/
def setArgv : List Sds := [['S', 'E', 'T'], ['k'], ['v']]

/-- Two commands in database 0, read in two fragments. -/
theorem same_database_iff_zero : ∃ cmds, Input.readAll (fun c => (c, false)) 512 .fresh
        [(resp setArgv ++ resp uinitArgv).take 7, (resp setArgv ++ resp uinitArgv).drop 7] =
          .ok (.fresh, cmds) ∧
      execute 16 0 cmds = [⟨0, setArgv⟩, ⟨0, uinitArgv⟩] := by
  have hfed : oneSlave.Fed 1 (link₁ []) := ⟨by decide +kernel, by decide⟩
  have hws : ∀ w ∈ [(⟨0, setArgv⟩ : Write), ⟨0, uinitArgv⟩],
      Input.Accepted 512 w.argv ∧ isSelect w.argv = false := by
    unfold Input.Accepted
    decide +kernel
  have hlink : (oneSlave.propagateAll [⟨0, setArgv⟩, ⟨0, uinitArgv⟩]).link 1 =
      some (link₁ (resp setArgv ++ resp uinitArgv)) := by decide +kernel
  have hreads : Input.ReadsFit (fun c => (c, false)) 512 .fresh
      [(resp setArgv ++ resp uinitArgv).take 7, (resp setArgv ++ resp uinitArgv).drop 7] := by
    decide +kernel
  obtain ⟨cmds, hread, hiff⟩ :=
    same_database_iff rfl hfed (by decide) hws hlink (by decide +kernel) hreads
  exact ⟨cmds, hread, hiff.mpr (by simp)⟩

/-- A command in database 1: the slave parses it and executes it in database 0. -/
theorem database_lost :
    (oneSlave.propagateAll [⟨1, setArgv⟩]).link 1 = some (link₁ (resp setArgv)) ∧
      Input.readAll (fun c => (c, false)) 512 .fresh [resp setArgv] = .ok (.fresh, [setArgv]) ∧
      execute 16 0 [setArgv] = [⟨0, setArgv⟩] := by
  refine ⟨?_, ?_, ?_⟩ <;> decide +kernel

end UfsRedis.Repl
