import UfsRedis.Protocol.Initialise
import UfsRedis.Protocol.LocalCommand

/-!
# Which commands a client handles safely

The check of a local command reads the graph before it knows that the elements exist, and what
follows the check depends on the letter case and the number of the arguments.
-/

namespace UfsRedis

open List Lib Option

/-! ## The check -/

def operandElements (x : Sds) : List Sds := if isSet x then sdssplit x ',' else [x]

def ElementsExist (g : CudGraph) (x : Sds) : Prop := ∀ e ∈ operandElements x, e ∈ g.names

/-- What the check of a union tests of its elements. The marker passes, also from a user. -/
def UnionPasses (g : CudGraph) (x y : Sds) : Prop :=
  if x = star ∨ y = star then (x = star ∨ x ∈ g.names) ∧ (y = star ∨ y ∈ g.names)
  else ElementsExist g x ∧ ElementsExist g y

def OperandsPass (g : CudGraph) (op : UfsOp) : Prop :=
  match op.argv2 with
  | some y => UnionPasses g op.argv1 y
  | none => ElementsExist g op.argv1

/-- The elements of all operands exist. The marker is none: nothing is executed for it. -/
def OperandsExist (g : CudGraph) (op : UfsOp) : Prop :=
  ∀ x, x = op.argv1 ∨ op.argv2 = some x → x ≠ star ∧ ElementsExist g x

/-- The elements of an operand are in one class, if it is a set. -/
def OneClass (g : CudGraph) (x : Sds) : Prop :=
  isSet x = true → isConnected g (sdssplit x ',') = .ok true

/-- The elements of each operand of a union are in one class. One with the marker has no set. -/
def UnionClasses (g : CudGraph) (x y : Sds) : Prop :=
  (x = star ∨ y = star) ∨ (OneClass g x ∧ OneClass g y)

/-- The elements of each operand of an operation are in one class. -/
def OperandClasses (g : CudGraph) (op : UfsOp) : Prop :=
  match op.argv2 with
  | some y => UnionClasses g op.argv1 y
  | none => OneClass g op.argv1

/-- The first element of an operand exists, if it is a set. -/
def FirstExists (g : CudGraph) (x : Sds) : Prop := isSet x = true → (sdssplit x ',').headD [] ∈ g.names

variable {g : CudGraph}

section

variable {x y e : Sds} {l : List Sds}

theorem existElement_iff : existElement g x = true ↔ x ∈ g.names := by
  simp [existElement, CudGraph.names]

theorem existElements_iff : existElements g l = true ↔ ∀ e ∈ l, e ∈ g.names := by
  simp [existElements, existElement_iff]

theorem elementsExist_set (h : isSet x = true) :
    ElementsExist g x ↔ ∀ e ∈ sdssplit x ',', e ∈ g.names := by
  rw [ElementsExist, operandElements, if_pos h]

theorem elementsExist_single (h : isSet x = false) : ElementsExist g x ↔ x ∈ g.names := by
  rw [ElementsExist, operandElements, if_neg (by simp [h])]
  simp

theorem locateVex_eq_none : locateVex g x = none ↔ x ∉ g.names := by
  constructor
  · intro h hx
    obtain ⟨i, hi⟩ := exists_locateVex hx
    rw [h] at hi
    cases hi
  intro h
  rw [locateVex, findIdx?_eq_none_iff]
  intro v hv
  simp only [decide_eq_false_iff_not]
  rintro rfl
  exact h (mem_map_of_mem hv)

theorem existEdgeNames_ok (hx : x ∈ g.names) (y : Sds) :
    ∃ b, existEdgeNames g x y = .ok b ∧ (b = true → y ∈ g.names) := by
  obtain ⟨i, hi⟩ := exists_locateVex hx
  rw [existEdgeNames, hi, vex_some, ok_bind]
  rcases hy : locateVex g y with _ | j
  · exact ⟨false, rfl, fun h => absurd h Bool.false_ne_true⟩
  refine ⟨_, rfl, fun _ => ?_⟩
  by_contra hno
  rw [locateVex_eq_none.mpr hno] at hy
  cases hy

theorem allM_existEdgeNames_ok (hx : x ∈ g.names) (l : List Sds) :
    ∃ b, l.allM (existEdgeNames g x) = .ok b ∧ (b = true → ∀ y ∈ l, y ∈ g.names) := by
  induction l with
  | nil => exact ⟨true, rfl, fun _ _ h => absurd h not_mem_nil⟩
  | cons y l ih =>
    obtain ⟨b, hb, hy⟩ := existEdgeNames_ok hx y
    obtain ⟨b', hb', hl⟩ := ih
    rw [List.allM, hb, ok_bind]
    obtain _ | _ := b
    · exact ⟨false, rfl, fun h => absurd h Bool.false_ne_true⟩
    refine ⟨b', hb', fun h z hz => ?_⟩
    rcases mem_cons.mp hz with rfl | hz
    · exact hy rfl
    · exact hl h z hz

theorem isConnected_ok (h : e ∈ g.names) (l : List Sds) : ∃ b, isConnected g (e :: l) = .ok b := by
  induction l generalizing e with
  | nil => exact ⟨true, rfl⟩
  | cons y l ih =>
    obtain ⟨b, hb, hall⟩ := allM_existEdgeNames_ok h (y :: l)
    rw [isConnected, hb, ok_bind]
    obtain _ | _ := b
    · exact ⟨false, rfl⟩
    exact ih (hall rfl y mem_cons_self)

theorem isConnected_error (h : e ∉ g.names) (y : Sds) (l : List Sds) :
    isConnected g (e :: y :: l) = .error .indexBounds := by
  have hedge : existEdgeNames g e y = .error .indexBounds := by
    rw [existEdgeNames, locateVex_eq_none.mpr h]
    rfl
  rw [isConnected, List.allM, hedge]
  rfl

theorem sdssplit_isSet (h : isSet x = true) : ∃ e y l, sdssplit x ',' = e :: y :: l := by
  obtain ⟨a, b, rfl⟩ := append_of_mem (of_decide_eq_true h)
  have hsplit : sdssplit (a ++ ',' :: b) ',' = a.splitOn ',' ++ b.splitOn ',' := by
    rw [sdssplit, if_neg (by simp)]
    exact splitOnP_append_cons a b rfl
  obtain ⟨e, es, hes⟩ := exists_cons_of_ne_nil (splitOnP_ne_nil (· == ',') a)
  obtain ⟨d, ds, hds⟩ := exists_cons_of_ne_nil (splitOnP_ne_nil (· == ',') b)
  rw [List.splitOn, List.splitOn, hes, hds] at hsplit
  cases es with
  | nil => exact ⟨e, d, ds, hsplit⟩
  | cons e' es => exact ⟨e, e', es ++ d :: ds, hsplit⟩

/-- The elements of a set are compared safely iff the first exists. -/
theorem isConnected_returns_iff (h : isSet x = true) :
    (∃ b, isConnected g (sdssplit x ',') = .ok b) ↔ FirstExists g x := by
  obtain ⟨e, y, l, hs⟩ := sdssplit_isSet h
  rw [FirstExists, hs, headD_cons]
  constructor
  · rintro ⟨b, hb⟩ -
    by_contra hno
    rw [isConnected_error hno] at hb
    cases hb
  · exact fun hex => isConnected_ok (hex h) (y :: l)

theorem checkSetSingle_returns_iff (h : isSet x = true) (err : ArgvErr) :
    (∃ r, checkSetSingle g x y err = .ok r) ↔ FirstExists g x := by
  rw [← isConnected_returns_iff h]
  constructor
  · rintro ⟨r, hr⟩
    simp only [checkSetSingle, bind_eq_ok] at hr
    obtain ⟨b, hb, -⟩ := hr
    exact ⟨b, hb⟩
  rintro ⟨b, hb⟩
  rw [checkSetSingle, hb, ok_bind]
  split
  · split <;> exact ⟨_, rfl⟩
  · exact ⟨_, rfl⟩

variable {r : Except Fault (Option ArgvErr)} {err : ArgvErr}

theorem ite_accepted [Decidable c] :
    (if c then r else .ok (some err)) = .ok none ↔ c ∧ r = .ok none := by
  split <;> simp [*]

theorem ite_rejected [Decidable c] :
    (if c then .ok (some err) else r) = .ok none ↔ ¬ c ∧ r = .ok none := by
  split <;> simp [*]

theorem oneClass_single (h : isSet x = false) : OneClass g x :=
  fun h' => absurd (h.symm.trans h') Bool.false_ne_true

theorem oneClass_set (h : isSet x = true) :
    OneClass g x ↔ isConnected g (sdssplit x ',') = .ok true :=
  ⟨fun hx => hx h, fun hx _ => hx⟩

theorem checkSetSingle_accepted_iff (h : isSet x = true) (hy : isSet y = false) :
    checkSetSingle g x y err = .ok none ↔
      (ElementsExist g x ∧ ElementsExist g y) ∧ OneClass g x := by
  rw [elementsExist_set h, elementsExist_single hy, oneClass_set h]
  simp only [checkSetSingle, bind_eq_ok, ite_accepted, Bool.and_eq_true, existElements_iff,
    existElement_iff, and_true]
  constructor
  · rintro ⟨b, hb, rfl, hex⟩
    exact ⟨hex, hb⟩
  rintro ⟨hex, hb⟩
  exact ⟨true, hb, rfl, hex⟩

/-- **The check of a union returns** iff the first elements of its sets exist, or an operand is the
marker. -/
theorem checkUnionArgv_returns_iff : (∃ r, checkUnionArgv g x y = .ok r) ↔
    (x = star ∨ y = star) ∨ (FirstExists g x ∧ FirstExists g y) := by
  rw [checkUnionArgv]
  split
  · rename_i hstar
    refine iff_of_true ?_ (.inl hstar)
    split
    · exact ⟨_, rfl⟩
    split <;> exact ⟨_, rfl⟩
  rename_i hstar
  rw [or_iff_right hstar]
  have hsingle : ∀ {z}, isSet z = false → FirstExists g z := fun hz hz' =>
    absurd (hz.symm.trans hz') Bool.false_ne_true
  cases hx : isSet x with
  | true =>
    cases hy : isSet y with
    | true =>
      simp only
      rw [← isConnected_returns_iff hx, ← isConnected_returns_iff hy]
      constructor
      · rintro ⟨r, hr⟩
        simp only [bind_eq_ok] at hr
        obtain ⟨b, hb, b', hb', -⟩ := hr
        exact ⟨⟨b, hb⟩, b', hb'⟩
      rintro ⟨⟨b, hb⟩, b', hb'⟩
      rw [hb, hb', ok_bind, ok_bind]
      cases b <;> cases b' <;> simp only [Bool.not_true, Bool.not_false, Bool.and_true,
        Bool.and_false, Bool.false_eq_true, if_true, if_false]
      · exact ⟨_, rfl⟩
      · exact ⟨_, rfl⟩
      · exact ⟨_, rfl⟩
      · split <;> exact ⟨_, rfl⟩
    | false =>
      simp only
      rw [checkSetSingle_returns_iff hx, and_iff_left (hsingle hy)]
  | false =>
    cases hy : isSet y with
    | true =>
      simp only
      rw [checkSetSingle_returns_iff hy, and_iff_right (hsingle hx)]
    | false =>
      refine iff_of_true ?_ ⟨hsingle hx, hsingle hy⟩
      simp only
      split <;> exact ⟨_, rfl⟩

/-- **The check accepts a union** iff its elements exist and those of each operand are in one
class. -/
theorem checkUnionArgv_accepted_iff :
    checkUnionArgv g x y = .ok none ↔ UnionPasses g x y ∧ UnionClasses g x y := by
  rw [checkUnionArgv, UnionPasses, UnionClasses]
  by_cases hstar : x = star ∨ y = star
  · rw [if_pos hstar, if_pos hstar, ite_rejected, ite_rejected,
      and_iff_left (b := _ ∨ _ ∧ _) (.inl hstar)]
    simp [existElement_iff, or_iff_not_imp_left]
  rw [if_neg hstar, if_neg hstar, or_iff_right hstar]
  cases hx : isSet x with
  | true =>
    cases hy : isSet y with
    | true =>
      rw [elementsExist_set hx, elementsExist_set hy, oneClass_set hx, oneClass_set hy]
      simp only [bind_eq_ok, ite_rejected, ite_accepted, Bool.and_eq_true, existElements_iff,
        Bool.not_eq_true', Bool.not_eq_false, and_true]
      constructor
      · rintro ⟨b, hb, b', hb', -, rfl, rfl, hex⟩
        exact ⟨hex, hb, hb'⟩
      rintro ⟨hex, hb, hb'⟩
      exact ⟨true, hb, true, hb', by simp, rfl, rfl, hex⟩
    | false => simp [checkSetSingle_accepted_iff hx hy, oneClass_single hy]
  | false =>
    cases hy : isSet y with
    | true =>
      simp only [checkSetSingle_accepted_iff hy hx, oneClass_single hx, true_and]
      rw [and_comm (a := ElementsExist g y)]
    | false =>
      rw [elementsExist_single hx, elementsExist_single hy]
      simp [existElement_iff, oneClass_single hx, oneClass_single hy]

/-- **The check of a split returns** iff the first element of a set exists. -/
theorem checkSplitArgv_returns_iff : (∃ r, checkSplitArgv g x = .ok r) ↔ FirstExists g x := by
  rw [checkSplitArgv]
  cases hx : isSet x with
  | true =>
    rw [← isConnected_returns_iff hx]
    simp only [if_true]
    constructor
    · rintro ⟨r, hr⟩
      rw [bind_eq_ok] at hr
      obtain ⟨b, hb, -⟩ := hr
      exact ⟨b, hb⟩
    rintro ⟨b, hb⟩
    rw [hb, ok_bind]
    split
    · split <;> exact ⟨_, rfl⟩
    · exact ⟨_, rfl⟩
  | false =>
    refine iff_of_true ?_ fun h => absurd (hx.symm.trans h) Bool.false_ne_true
    simp only [Bool.false_eq_true, if_false]
    split <;> exact ⟨_, rfl⟩

/-- **The check accepts a split** iff its elements exist and are in one class. -/
theorem checkSplitArgv_accepted_iff :
    checkSplitArgv g x = .ok none ↔ ElementsExist g x ∧ OneClass g x := by
  rw [checkSplitArgv]
  cases hx : isSet x with
  | true =>
    rw [if_pos rfl, elementsExist_set hx, oneClass_set hx]
    simp only [bind_eq_ok, ite_accepted, existElements_iff, and_true]
    constructor
    · rintro ⟨b, hb, rfl, hex⟩
      exact ⟨hex, hb⟩
    rintro ⟨hex, hb⟩
    exact ⟨true, hb, rfl, hex⟩
  | false =>
    rw [if_neg Bool.false_ne_true, elementsExist_single hx]
    simp [existElement_iff, oneClass_single hx]

end

/-! ## The execution -/

section

variable {x y : Sds}

theorem head_mem_of_isSet (h : isSet x = true) (hx : ElementsExist g x) :
    (sdssplit x ',').headD [] ∈ g.names := by
  obtain ⟨e, z, l, hs⟩ := sdssplit_isSet h
  rw [elementsExist_set h, hs] at hx
  rw [hs]
  exact hx e mem_cons_self

theorem exists_unionProc (h : UnionPasses g x y) : ∃ g', unionProc g x y = .ok g' := by
  rw [UnionPasses] at h
  rw [unionProc]
  by_cases hstar : x = star ∨ y = star
  · rw [if_pos hstar]
    exact ⟨g, rfl⟩
  rw [if_neg hstar] at h ⊢
  obtain ⟨hx, hy⟩ := h
  -- a set is linked, unless its first element is already in the class
  have hlink : ∀ {e z : Sds} {r : Except Fault CudGraph}, e ∈ g.names → (∃ g', r = .ok g') →
      ∃ g', (do if ← existEdgeNames g e z then .ok g else r) = .ok g' := by
    intro e z r he hr
    obtain ⟨b, hb, -⟩ := existEdgeNames_ok he z
    rw [hb, ok_bind]
    split
    · exact ⟨g, rfl⟩
    · exact hr
  cases hsx : isSet x with
  | true =>
    have hxs := (elementsExist_set hsx).mp hx
    cases hsy : isSet y with
    | true =>
      have hys := (elementsExist_set hsy).mp hy
      obtain ⟨g', hr, -⟩ := exists_foldlM_names (g := g)
        (f := fun g e1 => (sdssplit y ',').foldlM (fun g e2 => createLinksNames g e1 e2) g) hxs
        fun k e hk he => exists_foldlM_names (fun z hz => hk.names ▸ hys z hz) fun k' z hk' hz => by
          obtain ⟨h, hr⟩ := exists_createLinksNames (hk'.names ▸ he) hz
          exact ⟨h, hr, sameVertices_createLinksNames hr⟩
      exact hlink (head_mem_of_isSet hsx hx) ⟨g', hr⟩
    | false =>
      obtain ⟨g', hr, -⟩ := exists_linksTo hxs ((elementsExist_single hsy).mp hy)
      exact hlink (head_mem_of_isSet hsx hx) ⟨g', hr⟩
  | false =>
    have hxs := (elementsExist_single hsx).mp hx
    cases hsy : isSet y with
    | true =>
      obtain ⟨g', hr, -⟩ := exists_linksTo ((elementsExist_set hsy).mp hy) hxs
      exact hlink (head_mem_of_isSet hsy hy) ⟨g', hr⟩
    | false => exact exists_createLinksNames hxs ((elementsExist_single hsy).mp hy)

theorem exists_splitProc (h : ElementsExist g x) : ∃ g', splitProc g x = .ok g' := by
  rw [splitProc]
  cases hsx : isSet x with
  | true =>
    obtain ⟨g', hr, -⟩ := exists_foldlM_names (g := g)
      (f := fun g e => removeAdjEdge g e (some (sdssplit x ','))) ((elementsExist_set hsx).mp h)
      fun k e _ he => by
        obtain ⟨h, hr⟩ := exists_removeAdjEdge he (some (sdssplit x ','))
        exact ⟨h, hr, sameVertices_removeAdjEdge hr⟩
    exact ⟨g', hr⟩
  | false =>
    rw [if_neg (by simp)]
    split
    · exact exists_removeAdjEdge ((elementsExist_single hsx).mp h) none
    · exact ⟨g, rfl⟩

end

/-! ## The command -/

/-- The rewritten arguments have the operation of the command, for its key. -/
def ExecutesAsMeant (oid : Sds) (argv : List Sds) : Prop :=
  (argv.length = 5 → argv[2]? = argv.getLast?) ∧
    ((argv[0]? = some unionCmd ∧ (argv.length = 4 ∨ argv[2]? = some oid)) ∨
      argv[0]? = some splitCmd)

/-- The check does not read outside the arguments or the graph. -/
def ChecksSafely (g : CudGraph) (argv : List Sds) : Prop :=
  if argv[0]? = some unionCmd then
    ∃ x y, argv[1]? = some x ∧ argv[2]? = some y ∧
      ((x = star ∨ y = star) ∨ (FirstExists g x ∧ FirstExists g y))
  else ∃ x, argv[1]? = some x ∧ FirstExists g x

/-- The conditions on a command: the key is known, the check does not read outside the arguments or
the graph, and if it accepts, then no operand is the marker, the name is in lower case, the `oid`
fits into its buffers, and the rewritten arguments have the operation of the command. -/
def Safe (n : Node) (argv : List Sds) : Prop :=
  ∃ key cv g, argv.getLast? = some key ∧ n.cver key = some cv ∧ n.graph key = some g ∧
    ChecksSafely g argv ∧ ∀ op, localOp argv = .ok op → OperandsPass g op → OperandClasses g op →
      OperandsExist g op ∧ 3 ≤ argv.length ∧ n.port ≤ 16378 ∧ n.opNum + 1 ≤ 9999 ∧
        ExecutesAsMeant (oidText n.port (n.opNum + 1)) argv

def Rejects (n : Node) (argv : List Sds) (n' : Node) (o : Outcome) : Prop :=
  n' = n ∧ ∃ e, o = ⟨argv, false, some (.err e)⟩

/-- The operation of the command is executed on elements that exist. -/
def Executes (n : Node) (argv : List Sds) (n' : Node) (o : Outcome) : Prop :=
  ∃ key op g g', argv.getLast? = some key ∧ localOp argv = .ok op ∧ n.graph key = some g ∧
    OperandsExist g op ∧ executedOp o.argv = some (key, op) ∧ execOp g op = .ok g' ∧
    n'.graph key = some g' ∧ o.flagUfs = true ∧ o.reply = some .ok

/-- A command of a user is rejected without an effect, or executed. -/
def Protective (n : Node) (argv : List Sds) : Prop :=
  ∃ n' o, localProc n argv = .ok (n', o) ∧ (Rejects n argv n' o ∨ Executes n argv n' o)

section

variable {n : Node} {argv argv' : List Sds} {oid oids key name : Sds} {op : UfsOp} {cv : CVerlist}

theorem executedOp_rewritten (h : Rewritten oid oids argv argv') (hop : localOp argv = .ok op)
    (hkey : argv.getLast? = some key) :
    executedOp argv' = some (key, op) ↔ ExecutesAsMeant oid argv := by
  cases h with
  | three name x k =>
    obtain rfl : k = key := by simpa using hkey
    rw [localOp_cons, Except.ok.injEq] at hop
    rw [executedOp_cons (k := k) rfl, ← hop]
    by_cases hu : name = unionCmd
    · simp [ExecutesAsMeant, hu, unionOp, splitCmd_ne_unionCmd.symm, @eq_comm _ k oid]
    by_cases hs : name = splitCmd
    · simp [ExecutesAsMeant, hs, splitCmd_ne_unionCmd]
    · simp [ExecutesAsMeant, hu, hs]
  | four name x y k =>
    obtain rfl : k = key := by simpa using hkey
    rw [localOp_cons, Except.ok.injEq] at hop
    rw [executedOp_cons (k := k) rfl, ← hop]
    by_cases hu : name = unionCmd
    · simp [ExecutesAsMeant, hu]
    by_cases hs : name = splitCmd
    · simp [ExecutesAsMeant, hs, splitCmd_ne_unionCmd]
    · simp [ExecutesAsMeant, hu, hs]
  | more name x y b c rest =>
    rw [localOp_cons, Except.ok.injEq] at hop
    obtain ⟨k, hk⟩ : ∃ k, (name :: x :: oid :: oids :: y :: rest).getLast? = some k :=
      ⟨_, getLast?_cons⟩
    -- the key is the last argument, unless that has been overwritten
    have hlast : k = key ↔ ((name :: x :: y :: b :: c :: rest).length = 5 →
        (name :: x :: y :: b :: c :: rest)[2]? = (name :: x :: y :: b :: c :: rest).getLast?) := by
      rw [hkey]
      obtain _ | ⟨d, rest⟩ := rest
      · obtain rfl : y = k := by simpa using hk
        simp
      simp only [getLast?_cons_cons] at hk hkey
      rw [hk, some.injEq] at hkey
      simp [hkey]
    rw [executedOp_cons hk, ← hop, ExecutesAsMeant, ← hlast]
    by_cases hu : name = unionCmd
    · simp [hu, unionOp, splitCmd_ne_unionCmd.symm, @eq_comm _ y oid]
    by_cases hs : name = splitCmd
    · simp [hs, splitCmd_ne_unionCmd]
    · simp [hu, hs]

theorem exists_zero (h : argv.getLast? = some key) : ∃ name, argv[0]? = some name := by
  cases argv with
  | nil => cases h
  | cons name rest => exact ⟨name, rfl⟩

theorem Rewritten.three_le (h : Rewritten oid oids argv argv') : 3 ≤ argv.length := by
  cases h with
  | three => exact Nat.le_refl 3
  | four => simp
  | more => simp

theorem exists_localArgs (h : 3 ≤ argv.length) (oid oids : Sds) :
    ∃ argv', localArgs argv oid oids = .ok argv' := by
  match argv with
  | [_, _, _] => exact ⟨_, rfl⟩
  | [_, _, _, _] => exact ⟨_, rfl⟩
  | name :: x :: y :: b :: c :: rest =>
    have hlen : (name :: x :: y :: b :: c :: rest).length ≠ 4 := by simp
    rw [localArgs, if_neg hlen]
    exact ⟨_, rfl⟩

section

variable (hkey : argv.getLast? = some key) (hg : n.graph key = some g)
  (hname : argv[0]? = some name)
include hkey hg hname

theorem checkArgv_eq : checkArgv n argv =
      if name = unionCmd then (do checkUnionArgv g (← arg argv 1) (← arg argv 2))
      else (do checkSplitArgv g (← arg argv 1)) := by
  rw [checkArgv, keyArg_eq_ok.mpr hkey, ok_bind, Node.getUfs_eq hg, ok_bind, deref_some, ok_bind,
    arg_eq_ok.mpr hname, ok_bind]

/-- **The check returns** iff it does not read outside the arguments or the graph. -/
theorem checkArgv_returns_iff : (∃ r, checkArgv n argv = .ok r) ↔ ChecksSafely g argv := by
  rw [checkArgv_eq hkey hg hname, ChecksSafely]
  split
  · rename_i hu
    rw [if_pos (hname.trans (congrArg some hu))]
    simp only [bind_eq_ok, arg_eq_ok]
    constructor
    · rintro ⟨r, x, hx, y, hy, hr⟩
      exact ⟨x, y, hx, hy, checkUnionArgv_returns_iff.mp ⟨r, hr⟩⟩
    rintro ⟨x, y, hx, hy, hsafe⟩
    obtain ⟨r, hr⟩ := checkUnionArgv_returns_iff.mpr hsafe
    exact ⟨r, x, hx, y, hy, hr⟩
  rename_i hu
  rw [if_neg fun h => hu (some.inj (hname.symm.trans h))]
  simp only [bind_eq_ok, arg_eq_ok]
  constructor
  · rintro ⟨r, x, hx, hr⟩
    exact ⟨x, hx, checkSplitArgv_returns_iff.mp ⟨r, hr⟩⟩
  rintro ⟨x, hx, hsafe⟩
  obtain ⟨r, hr⟩ := checkSplitArgv_returns_iff.mpr hsafe
  exact ⟨r, x, hx, hr⟩

/-- **What the check accepts**: an operation on elements that exist, those of each operand in one
class. -/
theorem checkArgv_accepted_iff : checkArgv n argv = .ok none ↔
      ∃ op, localOp argv = .ok op ∧ OperandsPass g op ∧ OperandClasses g op := by
  rw [checkArgv_eq hkey hg hname, localOp, arg_eq_ok.mpr hname, ok_bind]
  by_cases hu : name = unionCmd
  · simp only [if_pos hu, bind_eq_ok, arg_eq_ok, checkUnionArgv_accepted_iff, Except.ok.injEq]
    constructor
    · rintro ⟨x, hx, y, hy, hex⟩
      exact ⟨unionOp x y, ⟨x, hx, y, hy, rfl⟩, hex⟩
    rintro ⟨op, ⟨x, hx, y, hy, rfl⟩, hex⟩
    exact ⟨x, hx, y, hy, hex⟩
  simp only [if_neg hu, bind_eq_ok, arg_eq_ok, checkSplitArgv_accepted_iff, Except.ok.injEq]
  constructor
  · rintro ⟨x, hx, hex⟩
    exact ⟨splitOp x, ⟨x, hx, rfl⟩, hex⟩
  rintro ⟨op, ⟨x, hx, rfl⟩, hex⟩
  exact ⟨x, hx, hex⟩

end

theorem exists_execOp (hop : localOp argv = .ok op) (hex : OperandsPass g op) :
    ∃ g', execOp g op = .ok g' := by
  simp only [localOp, bind_eq_ok] at hop
  obtain ⟨name, -, hop⟩ := hop
  split at hop
  · simp only [bind_eq_ok, Except.ok.injEq] at hop
    obtain ⟨x, -, y, -, rfl⟩ := hop
    exact exists_unionProc hex
  simp only [bind_eq_ok, Except.ok.injEq] at hop
  obtain ⟨x, -, rfl⟩ := hop
  exact exists_splitProc hex

/-- What a client has for every key that it knows: a graph, and a state space that is not empty and
whose edges lead to later vertices. -/
structure ClientOk (n : Node) : Prop where
  masterhost : n.masterhost = true
  ne : ∀ {k cv}, n.cver k = some cv → cv.vertices ≠ []
  space : ∀ {k cv}, n.cver k = some cv → SpaceInv (fun _ => True) (fun _ => True) cv.vertices
  graph : ∀ {k cv}, n.cver k = some cv → ∃ g, n.graph k = some g

theorem ClientOk.executes (h : ClientOk n) (hkey : argv.getLast? = some key)
    (hcv : n.cver key = some cv) (hg : n.graph key = some g)
    (hcheck : checkArgv n argv = .ok none) (hop : localOp argv = .ok op)
    (hpass : OperandsPass g op) (hex : OperandsExist g op) (hlen : 3 ≤ argv.length)
    (hport : n.port ≤ 16378) (hnum : n.opNum + 1 ≤ 9999)
    (hmeant : ExecutesAsMeant (oidText n.port (n.opNum + 1)) argv) :
    ∃ n' o, localProc n argv = .ok (n', o) ∧ Executes n argv n' o := by
  obtain ⟨g', hexec⟩ := exists_execOp hop hpass
  have hne := h.ne hcv
  have hfuel : cv.vertices.length ≤ cv.vertices.length + 1 + 0 := by omega
  obtain ⟨oids, hoids⟩ := (h.space hcv).calculateOids (length_pos_of_ne_nil hne) hfuel initOids
  obtain ⟨argv', hargs⟩ := exists_localArgs hlen (oidText n.port (n.opNum + 1)) oids
  have hexe := (executedOp_rewritten (localArgs_cases hargs) hop hkey).mpr hmeant
  have hkey' : g'.key = key := (sameVertices_execOp hexec).key.trans (Node.key_of_graph hg)
  have hgraph : (setUfs { n with opNum := n.opNum + 1 } key g').graph key = some g' :=
    Node.graph_setUfs_self (n := { n with opNum := n.opNum + 1 }) hg hkey'
  have hadd : ∃ V, addLast cv.vertices .l op (oidText n.port (n.opNum + 1))
      (fun _ => .ok (updateVerticeUfs g')) = .ok V :=
    (h.space hcv).exists_addLast hne fun _ => ⟨_, rfl⟩
  obtain ⟨V, hV⟩ := hadd
  have hstep : LocalStep n argv key cv
      (setCVertices (setUfs { n with opNum := n.opNum + 1 } key g') key V)
      ⟨argv', true, some .ok⟩ oids (oidText n.port (n.opNum + 1)) op
      (setUfs { n with opNum := n.opNum + 1 } key g') g' V :=
    ⟨hne, hoids, createOid_eq hport hnum, hop, hargs,
      localExec_of_executedOp (n := { n with opNum := n.opNum + 1 }) hexe hg hexec, hgraph, hV, rfl,
      rfl⟩
  exact ⟨_, _, hstep.localProc (keyArg_eq_ok.mpr hkey) hcv hcheck, key, op, g, g', hkey, hop, hg, hex,
    hexe, hexec, hgraph, rfl, rfl⟩

theorem ClientOk.protective (h : ClientOk n) (argv : List Sds) :
    Protective n argv ↔ Safe n argv := by
  constructor
  · rintro ⟨n', o, hproc, hcase⟩
    obtain ⟨key, cv, hkey, hcv, hpath⟩ := localProc_cases hproc
    rw [keyArg_eq_ok] at hkey
    obtain ⟨g, hg⟩ := h.graph hcv
    obtain ⟨name, hname⟩ := exists_zero hkey
    refine ⟨key, cv, g, hkey, hcv, hg, (checkArgv_returns_iff hkey hg hname).mp ?_,
      fun op hop hpass hcls => ?_⟩
    · rcases hpath with ⟨e, he, -⟩ | ⟨hnone, -⟩
      · exact ⟨_, he⟩
      · exact ⟨_, hnone⟩
    have hcheck := (checkArgv_accepted_iff hkey hg hname).mpr ⟨op, hop, hpass, hcls⟩
    rcases hpath with ⟨e, he, -⟩ | ⟨-, oids, oid, op₁, n1, g1, V, hstep⟩
    · rw [hcheck] at he
      cases he
    obtain ⟨hport, hnum, rfl⟩ := createOid_eq_ok.mp hstep.fresh
    have hre := localArgs_cases hstep.sent
    rcases hcase with ⟨-, e, ho⟩ | ⟨key', op', g0, g', hkey', hop', hg0, hex, hexe, -⟩
    · -- an accepted command has no error as its reply
      have hreply := hstep.reply
      rw [ho] at hreply
      simp at hreply
    refine ⟨?_, hre.three_le, hport, hnum, (executedOp_rewritten hre hop' hkey').mp hexe⟩
    rw [hkey, some.injEq] at hkey'
    subst hkey'
    rw [hg, some.injEq] at hg0
    rw [hop, Except.ok.injEq] at hop'
    exact hg0 ▸ hop' ▸ hex
  rintro ⟨key, cv, g, hkey, hcv, hg, hsafe, hacc⟩
  obtain ⟨name, hname⟩ := exists_zero hkey
  obtain ⟨r, hr⟩ := (checkArgv_returns_iff hkey hg hname).mpr hsafe
  cases r with
  | some e =>
    refine ⟨n, ⟨argv, false, some (.err e)⟩, ?_, .inl ⟨rfl, e, rfl⟩⟩
    simp [localProc, keyArg_eq_ok.mpr hkey, Node.locateCVerlist_eq hcv, hr]
  | none =>
    obtain ⟨op, hop, hpass, hcls⟩ := (checkArgv_accepted_iff hkey hg hname).mp hr
    obtain ⟨hex, hlen, hport, hnum, hmeant⟩ := hacc op hop hpass hcls
    obtain ⟨n', o, hproc, hexec⟩ :=
      h.executes hkey hcv hg hr hop hpass hex hlen hport hnum hmeant
    exact ⟨n', o, hproc, .inr hexec⟩

end

/-! ## Clients in any state -/

/-- What happens at a client: `uinit`, or `union` or `split`, from any connection. -/
inductive ClientCmd where
  | uinit (c : Client)
  | op (c : Client)

/-- The arguments have no NUL byte, and `uinit` has its number of arguments. -/
def ClientCmd.ArgsOk : ClientCmd → Prop
  | .uinit c => UinitArgs c.argv
  | .op c => ∀ a ∈ c.argv, NulFree a

def Node.clientStep (n : Node) : ClientCmd → Except Fault Node
  | .uinit c => do
    let (n, _, _) ← call uinitCommand n c
    .ok n
  | .op c => do
    let (n, _, _) ← call controlAlg n c
    .ok n

def Node.clientRun (n : Node) (cmds : List ClientCmd) : Except Fault Node :=
  cmds.foldlM Node.clientStep n

section

variable {n n' : Node} {c : Client} {argv : List Sds} {o : Outcome} {key : Sds} {g g' : CudGraph}
  {V : Space}

theorem closed_true (len : Nat) : Closed (fun _ => True) (fun _ => True) len :=
  ⟨fun _ _ _ => trivial, fun _ _ _ _ => ⟨trivial, trivial⟩⟩

section

variable (h : ClientOk n)
include h

theorem ClientOk.setUfs (hg : n.graph key = some g) (hkey : g'.key = key) :
    ClientOk (setUfs n key g') where
  masterhost := h.masterhost
  ne hcv := h.ne hcv
  space hcv := h.space hcv
  graph {k cv} hcv := by
    by_cases hk : k = key
    · subst hk
      exact ⟨g', Node.graph_setUfs_self hg hkey⟩
    obtain ⟨g0, hg0⟩ := h.graph hcv
    exact ⟨g0, (Node.graph_setUfs_ne hkey hk).trans hg0⟩

theorem ClientOk.setCVertices (hcv : n.cver key = some cv)
    (hne : V ≠ []) (hV : SpaceInv (fun _ => True) (fun _ => True) V) :
    ClientOk (setCVertices n key V) := by
  have hcase : ∀ {k w}, (UfsRedis.setCVertices n key V).cver k = some w →
      (k = key ∧ w = { cv with vertices := V }) ∨ n.cver k = some w := by
    intro k w hw
    by_cases hk : k = key
    · subst hk
      rw [Node.cver_setCVertices_self hcv, some.injEq] at hw
      exact .inl ⟨rfl, hw.symm⟩
    rw [Node.cver_setCVertices_ne hk] at hw
    exact .inr hw
  refine ⟨h.masterhost, fun hw => ?_, fun hw => ?_, fun hw => ?_⟩
  · rcases hcase hw with ⟨-, rfl⟩ | hw
    · exact hne
    · exact h.ne hw
  · rcases hcase hw with ⟨-, rfl⟩ | hw
    · exact hV
    · exact h.space hw
  rcases hcase hw with ⟨rfl, -⟩ | hw
  · exact h.graph hcv
  · exact h.graph hw

theorem ClientOk.localProc (hp : localProc n argv = .ok (n', o)) : ClientOk n' := by
  obtain ⟨key, cv, -, hcv, ⟨e, -, rfl, -⟩ | ⟨-, oids, oid, op, n1, g, V, hstep⟩⟩ :=
    localProc_cases hp
  · exact h
  have h0 : ClientOk { n with opNum := n.opNum + 1 } := ⟨h.masterhost, h.ne, h.space, h.graph⟩
  obtain ⟨hV, hlen⟩ := (h.space hcv).addLast trivial (fun _ _ => trivial) hstep.vertices
  have hne : V ≠ [] := ne_nil_of_length_pos (by omega)
  rw [hstep.node]
  obtain ⟨-, k, -, -, ⟨op', g0, g', -, -, hg0, hexec, rfl, -⟩ | ⟨-, -, rfl, -⟩⟩ :=
    localExec_cases hstep.exec
  · exact (h0.setUfs hg0 ((sameVertices_execOp hexec).key.trans
      (Node.key_of_graph hg0))).setCVertices hcv hne hV
  · exact h0.setCVertices hcv hne hV

theorem ClientOk.remoteProc (hp : remoteProc n argv = .ok (n', o)) : ClientOk n' := by
  obtain ⟨key, cv, a1, a2, oid, ctx, name, cop, V, u, oids, v, e, g, g', -, hcv, -, -, -, hrec, -, -,
    hg, hexec, rfl, -⟩ := remoteProc_cases hp
  obtain ⟨hV, hlen⟩ := (h.space hcv).receive (closed_true _) trivial trivial hrec
  have hpos := length_pos_of_ne_nil (h.ne hcv)
  exact (h.setUfs hg ((sameVertices_execOp hexec).key.trans
    (Node.key_of_graph hg))).setCVertices hcv (ne_nil_of_length_pos (by omega)) hV

theorem ClientOk.uinit (hc : c.argv.length = 3)
    (hp : uinitCommand n c = .ok (n', o)) : ClientOk n' := by
  obtain ⟨m, o', g, hp', -, hkept⟩ := uinitCommand_client (n := n) h.masterhost hc
  rw [hp, Except.ok.injEq, Prod.mk.injEq] at hp'
  obtain ⟨rfl, rfl⟩ := hp'
  have hcase : ∀ {k w}, n'.cver k = some w →
      n.cver k = some w ∨ (uinitKey c.argv = k ∧ w = clientSpace g) := by
    intro k w hw
    rw [hkept.cver] at hw
    cases hk : n.cver k with
    | some w' =>
      rw [hk, some_or] at hw
      exact .inl hw
    | none =>
      rw [hk, none_or] at hw
      split at hw
      · next hkey => exact .inr ⟨hkey, (some.inj hw).symm⟩
      · cases hw
  refine ⟨hkept.masterhost, fun hw => ?_, fun hw => ?_, fun {k w} hw => ?_⟩
  · rcases hcase hw with hw | ⟨-, rfl⟩
    · exact h.ne hw
    · exact cons_ne_nil _ _
  · rcases hcase hw with hw | ⟨-, rfl⟩
    · exact h.space hw
    · exact .start trivial
  rw [hkept.graph]
  cases hg : n.graph k with
  | some g' => exact ⟨g', rfl⟩
  | none =>
    rcases hcase hw with hw | ⟨hk, -⟩
    · obtain ⟨g', hg'⟩ := h.graph hw
      rw [hg] at hg'
      cases hg'
    · exact ⟨g, by rw [none_or, if_pos hk]⟩

theorem ClientOk.run
    (hcmds : ∀ c, .uinit c ∈ cmds → c.argv.length = 3) (hr : n.clientRun cmds = .ok n') :
    ClientOk n' := by
  refine foldlM_ok h (fun m cmd hmem m' hm hstep => ?_) hr
  cases cmd with
  | uinit c =>
    simp only [Node.clientStep, bind_eq_ok, Except.ok.injEq] at hstep
    obtain ⟨⟨m1, o, dests⟩, hcall, rfl⟩ := hstep
    exact hm.uinit (hcmds c hmem) (call_eq_ok.mp hcall).1
  | op c =>
    simp only [Node.clientStep, bind_eq_ok, Except.ok.injEq] at hstep
    obtain ⟨⟨m1, o, dests⟩, hcall, rfl⟩ := hstep
    have hproc := (call_eq_ok.mp hcall).1
    rw [controlAlg, if_pos hm.masterhost] at hproc
    split at hproc
    · exact hm.remoteProc hproc
    · exact hm.localProc hproc

end

/-- **Which commands a client handles safely.** In every state of a client, a command of a user is
rejected without an effect or executes its operation on existing elements iff the key is known, the
first element of each set exists, and a command that passes the check has no `*`, its name in lower
case, an `oid` that fits into its buffers, and a number of arguments for which the rewritten
arguments have its operation. -/
theorem protective_iff {cmds : List ClientCmd} (hm : n.masterhost = true)
    (hnew : n.cspacelist = none) (hcmds : ∀ c ∈ cmds, c.ArgsOk) (hr : n.clientRun cmds = .ok n')
    (argv : Argv) : Protective n' argv ↔ Safe n' argv := by
  have hnone : ∀ {k cv}, n.cver k ≠ some cv := fun h => by
    rw [Node.cver, hnew] at h
    cases h
  have h0 : ClientOk n :=
    ⟨hm, fun h => absurd h hnone, fun h => absurd h hnone, fun h => absurd h hnone⟩
  exact (h0.run (fun c hc => (hcmds _ hc).1) hr).protective argv

end

theorem protective_iff_split : ∃ n,
    (freshClient 6380).clientRun [.uinit (userClient [uinitCmd, ['k'], ['a', ',', 'b']])] = .ok n ∧
      (Protective n [splitCmd, ['a'], ['k']] ↔ Safe n [splitCmd, ['a'], ['k']]) := by
  refine exists_ok_imp (P := fun _ => True) (by decide +kernel) fun n hn _ =>
    protective_iff rfl rfl (fun c hc => ?_) hn ⟨[splitCmd, ['a'], ['k']], by decide⟩
  rw [mem_singleton.mp hc]
  show UinitArgs _
  decide

/-- Commands of users that are neither rejected nor executed: an unknown key and a set whose first
element does not exist are read through, and `SPLIT` changes the state space and the number of
operations, without a reply. -/
theorem validation_fails : ∃ n, demoClient = .ok n ∧
    localProc n [unionCmd, ['a'], ['b'], ['x']] = .error .nullDeref ∧
    localProc n [splitCmd, ['z', ',', 'a'], ['k']] = .error .indexBounds ∧
    localProc n [unionCmd, ['k']] = .error .argvBounds ∧
    dispatch [['S', 'P', 'L', 'I', 'T'], ['a'], ['k']] = some .split ∧
    ∃ r, localProc n [['S', 'P', 'L', 'I', 'T'], ['a'], ['k']] = .ok r ∧ r.1.opNum = n.opNum + 1 ∧
      r.1.cspacelist ≠ n.cspacelist ∧ r.1.ufslist = n.ufslist ∧ r.2.reply = none := by
  decide +kernel

end UfsRedis
