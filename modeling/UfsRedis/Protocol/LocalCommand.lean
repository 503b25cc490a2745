import UfsRedis.Protocol.Forwarding
import UfsRedis.Protocol.ServerUpdate
import UfsRedis.Ufs.Query

/-!
# The operation of a local command

`controlAlg` looks at the name and at the number of arguments of a local command again for each of
its effects: for the edge that it records, for the arguments that it sends, and for the operation
that it executes with those.
-/

namespace UfsRedis

open Option List

/-! ## The command table -/

/-- The commands on union-find sets. -/
inductive Command where
  | find
  | umembers
  | union
  | split
  | uinit
  deriving DecidableEq

/-- Their entries in `redisCommandTable`: the name, the command and its arity. -/
def redisCommandTable : List (Sds × Command × Int) :=
  [(findCmd, .find, 3), (umembersCmd, .umembers, 2), (unionCmd, .union, -1), (splitCmd, .split, -1),
    (uinitCmd, .uinit, 3)]

/-- `lookupCommand(name)`: names are compared without regard to case. -/
def lookupCommand (name : Sds) : Option (Command × Int) :=
  (redisCommandTable.find? fun r => r.1 = name.map Char.toLower).map Prod.snd

/-- The command that `processCommand` calls. -/
def dispatch (argv : List Sds) : Option Command :=
  match lookupCommand (argv.headD []) with
  | none => none
  | some (cmd, arity) =>
    if (0 < arity ∧ arity ≠ argv.length) ∨ (argv.length : Int) < -arity then none else some cmd

/-! ## What is executed and what is sent -/

/-- The operation that `localExec` executes, and its key. -/
def executedOp (argv : List Sds) : Option (Sds × UfsOp) :=
  match argv[0]?, argv.getLast? with
  | some name, some key =>
    if name = unionCmd then
      match argv[1]?, argv[2]? with
      | some x, some y => some (key, unionOp x y)
      | _, _ => none
    else if name = splitCmd then argv[1]?.map fun x => (key, splitOp x)
    else none
  | _, _ => none

/-- The operation that the server reads from a command, with its key and its `oid`. -/
def sentOp (argv : List Sds) : Option (Sds × UfsOp × Sds) :=
  match parseArgs argv, argv[0]?, argv.getLast? with
  | .ok (a1, a2, oid, _), some name, some key =>
    some (key, ⟨if name = unionCmd then .union else .split, a1, a2⟩, oid)
  | _, _, _ => none

def propagatedOp (o : Outcome) : Option (Sds × UfsOp × Sds) := if o.flagUfs then sentOp o.argv else none

/-- The operation `op` with the `oid` is on the new `ledge` of the last vertice of the key. -/
def RecordedOn (n n' : Node) (key : Sds) (op : UfsOp) (oid : Sds) : Prop :=
  ∃ cv cv' u, n.cver key = some cv ∧ locateLast cv.vertices = .ok (some u) ∧
    n'.cver key = some cv' ∧ cv'.vertices.edgeAt u .l = some ⟨op, oid, cv.vertices.length⟩

section

variable {n n' : Node} {argv : List Sds} {executed : Bool} {a key : Sds}
  {i : Nat}

theorem arg_eq_ok : arg argv i = .ok a ↔ argv[i]? = some a := by
  rw [arg]
  cases argv[i]? <;> simp

theorem keyArg_eq_ok : keyArg argv = .ok a ↔ argv.getLast? = some a := by
  rw [keyArg]
  cases argv.getLast? <;> simp

theorem localExec_executedOp (h : localExec n argv = .ok (n', executed)) :
    executed = (executedOp argv).isSome ∧ ∀ key op, executedOp argv = some (key, op) →
      ∃ g g', n.graph key = some g ∧ execOp g op = .ok g' ∧ n' = setUfs n key g' := by
  obtain ⟨name, k, hname, hk, hcase⟩ := localExec_cases h
  rw [arg_eq_ok] at hname
  rw [keyArg_eq_ok] at hk
  rcases hcase with ⟨op, g, g', hcmd, hop, hg, hexec, rfl, rfl⟩ | ⟨hu, hs, rfl, rfl⟩
  · have hexe : executedOp argv = some (k, op) := by
      rw [localOp, arg_eq_ok.mpr hname, ok_bind] at hop
      rw [executedOp, hname, hk]
      simp only
      split at hop
      · next hu =>
        simp only [bind_eq_ok, arg_eq_ok, Except.ok.injEq] at hop
        obtain ⟨x, hx, y, hy, rfl⟩ := hop
        simp only [if_pos hu, hx, hy]
      next hu =>
      simp only [bind_eq_ok, arg_eq_ok, Except.ok.injEq] at hop
      obtain ⟨x, hx, rfl⟩ := hop
      simp [if_neg hu, if_pos (hcmd.resolve_left hu), hx]
    refine ⟨by rw [hexe]; rfl, fun key op' hop' => ?_⟩
    rw [hexe, some.injEq, Prod.mk.injEq] at hop'
    obtain ⟨rfl, rfl⟩ := hop'
    exact ⟨g, g', hg, hexec, rfl⟩
  have hexe : executedOp argv = none := by
    rw [executedOp, hname, hk]
    simp only [if_neg hu, if_neg hs]
  rw [hexe]
  refine ⟨rfl, fun _ _ h => ?_⟩
  cases h

theorem localExec_of_executedOp (h : executedOp argv = some (key, op)) (hg : n.graph key = some g)
    (hexec : execOp g op = .ok g') : localExec n argv = .ok (setUfs n key g', true) := by
  rw [executedOp] at h
  split at h
  · next name k hname hk =>
    split at h
    · next hu =>
      split at h
      · next x y hx hy =>
        simp only [some.injEq, Prod.mk.injEq] at h
        obtain ⟨rfl, rfl⟩ := h
        simp only [execOp, unionOp, deref_some, ok_bind] at hexec
        simp [localExec, arg_eq_ok.mpr hname, keyArg_eq_ok.mpr hk, if_pos hu, Node.getUfs_eq hg,
          arg_eq_ok.mpr hx, arg_eq_ok.mpr hy, hexec]
      · cases h
    next hu =>
    split at h
    · next hs =>
      rcases hx : argv[1]? with _ | x
      · rw [hx] at h
        cases h
      rw [hx] at h
      simp only [map_some, some.injEq, Prod.mk.injEq] at h
      obtain ⟨rfl, rfl⟩ := h
      simp only [execOp, splitOp] at hexec
      simp [localExec, arg_eq_ok.mpr hname, keyArg_eq_ok.mpr hk, if_neg hu, if_pos hs,
        Node.getUfs_eq hg, arg_eq_ok.mpr hx, hexec]
    · cases h
  · cases h

end

/-! ## The rewritten arguments -/

section

variable {argv argv' : List Sds} {oid oids : Sds}

/-- The arguments after `rewriteClientCommandArgument`. The key is the last argument of a command
with three or four arguments only. -/
inductive Rewritten (oid oids : Sds) : List Sds → List Sds → Prop
  | three (name x key : Sds) : Rewritten oid oids [name, x, key] [name, x, oid, oids, key]
  | four (name x y key : Sds) : Rewritten oid oids [name, x, y, key] [name, x, y, oid, oids, key]
  | more (name x y b c : Sds) (rest : List Sds) :
    Rewritten oid oids (name :: x :: y :: b :: c :: rest) (name :: x :: oid :: oids :: y :: rest)

theorem localArgs_cases (h : localArgs argv oid oids = .ok argv') : Rewritten oid oids argv argv' := by
  match argv with
  | [] => cases h
  | [_] => cases h
  | [_, _] => cases h
  | [name, x, key] =>
    cases h
    exact .three name x key
  | [name, x, y, key] =>
    cases h
    exact .four name x y key
  | name :: x :: y :: b :: c :: rest =>
    have hlen : (name :: x :: y :: b :: c :: rest).length ≠ 4 := by simp
    rw [localArgs, if_neg hlen] at h
    cases h
    exact .more name x y b c rest

end

/-! ## One operation -/

/-- The rewritten arguments are read as they were meant: `union x y key`, or `split x key` with as
many arguments more as do no harm. -/
def ReadAsMeant (argv : List Sds) : Prop :=
  (argv[0]? = some unionCmd ∧ argv.length = 4) ∨
    (argv[0]? = some splitCmd ∧ (argv.length = 3 ∨
      (argv.length = 5 ∧ argv[2]? = argv.getLast?) ∨ 7 ≤ argv.length))

instance (argv : List Sds) : Decidable (ReadAsMeant argv) := inferInstanceAs (Decidable (_ ∨ _))

section

variable {argv argv' : List Sds} {oid oids key : Sds} {op : UfsOp}

theorem splitCmd_ne_unionCmd : splitCmd ≠ unionCmd := by decide

variable {name x y k b : Sds} {rest : List Sds} {V : Space} {fuel q : Nat}

theorem localOp_cons : localOp (name :: x :: y :: rest) =
      .ok (if name = unionCmd then unionOp x y else splitOp x) := by
  simp only [localOp, arg, getElem?_cons_zero, getElem?_cons_succ, ok_bind]
  split <;> rfl

theorem executedOp_cons (hkey : (name :: x :: y :: rest).getLast? = some k) :
    executedOp (name :: x :: y :: rest) =
      if name = unionCmd then some (k, unionOp x y)
      else if name = splitCmd then some (k, splitOp x) else none := by
  simp [executedOp, hkey]

theorem sentOp_six : sentOp [name, x, y, b, c, k] =
      some (k, ⟨if name = unionCmd then .union else .split, x, some y⟩, b) := rfl

theorem sentOp_other
    (hkey : (name :: x :: b :: c :: rest).getLast? = some k) (hlen : rest.length ≠ 2) :
    sentOp (name :: x :: b :: c :: rest) =
      some (k, ⟨if name = unionCmd then .union else .split, x, none⟩, b) := by
  have hlen' : (name :: x :: b :: c :: rest).length ≠ 6 := by
    simp only [length_cons]
    omega
  have hparse : parseArgs (name :: x :: b :: c :: rest) = .ok (x, none, b, c) := by
    rw [parseArgs, if_neg hlen']
    rfl
  rw [sentOp, hparse, hkey]
  rfl

theorem rewritten_iff (h : Rewritten oid oids argv argv') (hop : localOp argv = .ok op)
    (hkey : argv.getLast? = some key) (hne : oids ≠ oid) :
    (executedOp argv' = some (key, op) ∧ sentOp argv' = some (key, op, oid)) ↔
      ReadAsMeant argv := by
  cases h with
  | three name x k =>
    obtain rfl : k = key := by simpa using hkey
    rw [localOp_cons, Except.ok.injEq] at hop
    rw [executedOp_cons (k := k) rfl, sentOp_other (k := k) rfl (by simp), ← hop]
    by_cases hu : name = unionCmd
    · -- a union without its second operand
      simp [ReadAsMeant, hu, unionOp, splitCmd_ne_unionCmd.symm]
    by_cases hs : name = splitCmd
    · simp [ReadAsMeant, hs, splitOp, splitCmd_ne_unionCmd]
    · simp [ReadAsMeant, hu, hs]
  | four name x y k =>
    obtain rfl : k = key := by simpa using hkey
    rw [localOp_cons, Except.ok.injEq] at hop
    rw [executedOp_cons (k := k) rfl, sentOp_six, ← hop]
    by_cases hu : name = unionCmd
    · simp [ReadAsMeant, hu, unionOp]
    by_cases hs : name = splitCmd
    · -- the server reads a second operand
      simp [ReadAsMeant, hs, splitOp, splitCmd_ne_unionCmd]
    · simp [ReadAsMeant, hu, hs]
  | more name x y b c rest =>
    rw [localOp_cons, Except.ok.injEq] at hop
    obtain ⟨k, hk⟩ : ∃ k, (name :: x :: oid :: oids :: y :: rest).getLast? = some k :=
      ⟨_, getLast?_cons⟩
    rw [executedOp_cons hk, ← hop]
    by_cases hu : name = unionCmd
    · -- the second operand has been overwritten
      have hno : ¬ ReadAsMeant (name :: x :: y :: b :: c :: rest) := by
        simp [ReadAsMeant, hu, splitCmd_ne_unionCmd.symm]
      refine iff_of_false ?_ hno
      rintro ⟨-, hsent⟩
      rcases rest with _ | ⟨k', _ | ⟨d, rest⟩⟩
      · rw [sentOp_other hk (by simp)] at hsent
        simp [hu, unionOp] at hsent
      · -- six arguments: the server reads its context as the `oid`
        rw [sentOp_six] at hsent
        simp only [some.injEq, Prod.mk.injEq] at hsent
        exact hne hsent.2.2
      rw [sentOp_other hk (by simp)] at hsent
      simp [hu, unionOp] at hsent
    by_cases hs : name = splitCmd
    · rcases rest with _ | ⟨k', _ | ⟨d, rest⟩⟩
      · obtain rfl : y = k := by simpa using hk
        obtain rfl : c = key := by simpa using hkey
        rw [sentOp_other hk (by simp)]
        simp [ReadAsMeant, hs, splitOp, splitCmd_ne_unionCmd]
      · rw [sentOp_six]
        simp [ReadAsMeant, hs, splitOp, splitCmd_ne_unionCmd]
      have hkk : k = key := by
        simp only [getLast?_cons_cons] at hk hkey
        rw [hk, some.injEq] at hkey
        exact hkey
      rw [sentOp_other hk (by simp)]
      simp [ReadAsMeant, hs, splitOp, splitCmd_ne_unionCmd, hkk]
    · simp [ReadAsMeant, hu, hs]

theorem prefix_calculateOids (h : calculateOids V fuel q t = .ok oids) : t <+: oids := by
  induction fuel generalizing q t with
  | zero => cases h
  | succ fuel ih =>
    rw [calculateOids, bind_eq_ok] at h
    obtain ⟨v, -, h⟩ := h
    have hcat : ∀ oid, t <+: catOid t oid := fun oid => prefix_append _ _
    split at h
    · cases h
      exact prefix_rfl
    · exact (hcat _).trans (ih h)
    · exact (hcat _).trans (ih h)

theorem context_ne_oid
    (hoids : calculateOids V fuel q initOids = .ok oids) (hoid : createOid port num = .ok oid) :
    oids ≠ oid := by
  rintro rfl
  have hmem : 'i' ∈ oids := (prefix_calculateOids hoids).subset (by decide)
  simp only [createOid, bind_eq_ok, Except.ok.injEq] at hoid
  obtain ⟨a, ha, b, hb, rfl⟩ := hoid
  have hbuf : ∀ {v size t}, itosBuf v size = .ok t → 'i' ∉ t := by
    intro v size t ht
    rw [itosBuf] at ht
    split at ht
    · cases ht
      exact not_mem_itos (by decide) v
    · cases ht
  rcases mem_append.mp hmem with hm | hm
  · exact hbuf ha hm
  rcases mem_cons.mp hm with hm | hm
  · exact absurd hm (by decide)
  · exact hbuf hb hm

theorem LocalStep.recordedOn
    (h : LocalStep n argv key cv n' o oids oid op n₁ g V) (hcv : n.cver key = some cv) :
    RecordedOn n n' key op oid := by
  have hadd := h.vertices
  simp only [addLast, bind_eq_ok, Except.ok.injEq] at hadd
  obtain ⟨l, hl, u, hu, vu, hvu, S, -, hV⟩ := hadd
  rw [deref_eq_ok] at hu
  subst hu
  have hn1 : n₁.cver key = some cv := by
    obtain ⟨-, k, -, -, ⟨op', g0, g', -, -, -, -, hn1, -⟩ | ⟨-, -, hn1, -⟩⟩ := localExec_cases h.exec
    · rw [hn1]
      exact hcv
    rw [hn1]
    exact hcv
  refine ⟨cv, _, u, hcv, hl, by rw [h.node]; exact Node.cver_setCVertices_self hn1, ?_⟩
  rw [← hV]
  exact edgeAt_addOp (Space.of_vertice hvu).1

/-- **One command, one operation.** The operation that an accepted command records, the one that it
executes and the one that it sends are one, with the same key, operands and `oid`, iff the name is
in lower case and the command is `union x y key`, or `split x key` with no argument more that the
rewriting mistakes for another. -/
theorem one_operation_iff {n n' : Node} {o : Outcome} (h : localProc n argv = .ok (n', o))
    (hcheck : checkArgv n argv = .ok none) : ∃ key op oid, RecordedOn n n' key op oid ∧
      ((executedOp o.argv = some (key, op) ∧ propagatedOp o = some (key, op, oid)) ↔
        ReadAsMeant argv) := by
  obtain ⟨key, cv, hkey, hcv, ⟨e, he, -⟩ | ⟨-, oids, oid, op, n1, g, V, hstep⟩⟩ := localProc_cases h
  · rw [hcheck] at he
    cases he
  refine ⟨key, op, oid, hstep.recordedOn hcv, ?_⟩
  rw [← rewritten_iff (localArgs_cases hstep.sent) hstep.recorded (keyArg_eq_ok.mp hkey)
    (context_ne_oid hstep.context hstep.fresh)]
  refine and_congr_right fun hexe => ?_
  have hflag := (localExec_executedOp hstep.exec).1
  rw [hexe, isSome_some] at hflag
  rw [propagatedOp, if_pos hflag]

end

theorem one_operation_iff_split : ∃ n, demoClient = .ok n ∧
    ∃ r, localProc n [splitCmd, ['a'], ['k']] = .ok r ∧
      checkArgv n [splitCmd, ['a'], ['k']] = .ok none ∧
      ∃ key op oid, RecordedOn n r.1 key op oid ∧
        ((executedOp r.2.argv = some (key, op) ∧ propagatedOp r.2 = some (key, op, oid)) ↔
          ReadAsMeant [splitCmd, ['a'], ['k']]) := by
  obtain ⟨n, hn, r, hr, hc⟩ : ∃ n, demoClient = .ok n ∧
      ∃ r, localProc n [splitCmd, ['a'], ['k']] = .ok r ∧
        checkArgv n [splitCmd, ['a'], ['k']] = .ok none := by decide +kernel
  exact ⟨n, hn, r, hr, hc, one_operation_iff hr hc⟩

/-- `UNION a b k` is recorded as a split, and neither executed nor sent; `split a x y k` is recorded
for `k`, and executed and sent for `x`. -/
theorem operations_differ : ∃ n, initNode [(['k'], ['a', ',', 'b']), (['x'], ['a', ',', 'b'])]
      (freshClient 6380) = .ok n ∧
    (dispatch [['U', 'N', 'I', 'O', 'N'], ['a'], ['b'], ['k']] = some .union ∧
      ∃ r, localProc n [['U', 'N', 'I', 'O', 'N'], ['a'], ['b'], ['k']] = .ok r ∧
        (r.1.cver ['k']).map (fun cv => cv.vertices.map fun v => v.ledge.map (·.op)) =
          some [some (splitOp ['a']), none] ∧
        executedOp r.2.argv = none ∧ propagatedOp r.2 = none ∧ r.2.reply = none) ∧
    (dispatch [splitCmd, ['a'], ['x'], ['y'], ['k']] = some .split ∧
      ∃ r, localProc n [splitCmd, ['a'], ['x'], ['y'], ['k']] = .ok r ∧
        (r.1.cver ['k']).map (fun cv => cv.vertices.map fun v => v.ledge.map (·.op)) =
          some [some (splitOp ['a']), none] ∧
        executedOp r.2.argv = some (['x'], splitOp ['a'])) := by
  decide +kernel

end UfsRedis
