import UfsRedis.Types.SkiplistOps

/-!
# Runs of skiplist operations

* `SkiplistOk z ns`: the order of the nodes `ns`, and that all pointers and spans of `z` are those of
  the list;
* `run_skiplistOk`: it holds after every run in which the list has fewer than `2 ^ 32` nodes;
* `span_wraps`: with more, a span does not fit into its `unsigned int`.
-/

namespace UfsRedis.Skiplist

open List

variable {S E : Type}

def Before [LinearOrder S] [LinearOrder E] (a b : Cell S E) : Prop :=
  a.score < b.score ∨ (a.score = b.score ∧ a.ele < b.ele)

/-- The skiplist `z` has the nodes `ns`. -/
structure SkiplistOk [LinearOrder S] [LinearOrder E] (z : Zskiplist S E) (ns : List (Cell S E)) :
    Prop where
  sorted : ns.Pairwise Before
  nodup : (ns.map Cell.addr).Nodup
  /-- On every level, the next node of that level and its distance. -/
  levels : ∀ pre post, ns = pre ++ post → ∀ i, i < hgt z.level pre →
    lev z (place pre) i = some ⟨fwd i post, dist i post⟩
  /-- Element, score, backward pointer and number of levels of each node. -/
  node : ∀ pre c post, ns = pre ++ c :: post →
    (z.nodes.get c.addr).map info = some (c.ele, c.score, (place pre).addr, c.height)
  tail : z.tail = (place ns).addr
  length : z.length = ns.length
  heights : ∀ c ∈ ns, 1 ≤ c.height ∧ c.height ≤ z.level
  level : 1 ≤ z.level ∧ (z.level = 1 ∨ ∃ c ∈ ns, c.height = z.level)

/-- A call. The random level of an insertion comes with it. -/
inductive Op (S E : Type) where
  | insert (score : S) (ele : E) (level : Nat)
  | delete (score : S) (ele : E)
  | deleteRangeByScore (range : Rangespec S)
  | deleteRangeByLex (range : Lexrangespec E)
  | deleteRangeByRank (start stop : Nat)

def itemsFrom (z : Zskiplist S E) : Nat → Option Nat → List (S × E)
  | 0, _ => []
  | _ + 1, none => []
  | fuel + 1, some a =>
    match z.nodes.get a with
    | none => []
    | some n => (n.score, n.ele) :: itemsFrom z fuel (n.level[0]?.bind Level.forward)

def items (z : Zskiplist S E) : List (S × E) :=
  itemsFrom z (z.nodes.next + 1) (z.header[0]?.bind Level.forward)

section

variable [LinearOrder S] [LinearOrder E]

def exec (z : Zskiplist S E) : Op S E → Except Fault (Zskiplist S E)
  | .insert score ele level => zslInsert z score ele level
  | .delete score ele => do .ok (← zslDelete z score ele).1
  | .deleteRangeByScore range => do .ok (← zslDeleteRangeByScore z range).1
  | .deleteRangeByLex range => do .ok (← zslDeleteRangeByLex z range).1
  | .deleteRangeByRank start stop => do .ok (← zslDeleteRangeByRank z start stop).1

def run (z : Zskiplist S E) (ops : List (Op S E)) : Except Fault (Zskiplist S E) :=
  ops.foldlM exec z

/-- What callers see to: new elements, and equal scores where elements are compared alone. -/
def OpOk (z : Zskiplist S E) : Op S E → Prop
  | .insert _ ele level => 1 ≤ level ∧ level ≤ maxLevel ∧ ∀ a ∈ items z, a.2 ≠ ele
  | .deleteRangeByLex _ => ∀ a ∈ items z, ∀ b ∈ items z, a.1 = b.1
  | _ => True

/-- The list stays shorter than the numbers of an `unsigned int`. -/
def Fits (z : Zskiplist S E) (op : Op S E) : Prop :=
  OpOk z op ∧ ∀ score ele level, op = .insert score ele level → z.length + 1 < uintSize

/-- Every call of a run meets a condition on the state before it. -/
def Meets (C : Zskiplist S E → Op S E → Prop) : Zskiplist S E → List (Op S E) → Prop
  | _, [] => True
  | z, op :: ops => C z op ∧ ∀ z', exec z op = .ok z' → Meets C z' ops

instance (z : Zskiplist S E) (op : Op S E) : Decidable (OpOk z op) := by
  cases op <;> unfold OpOk <;> infer_instance

instance (z : Zskiplist S E) (op : Op S E) : Decidable (Fits z op) :=
  decidable_of_iff (OpOk z op ∧ (op matches .insert _ _ _ → z.length + 1 < uintSize)) <| by
    cases op <;> simp [Fits]

instance decidableMeets (C : Zskiplist S E → Op S E → Prop) [∀ z op, Decidable (C z op)] :
    ∀ z ops, Decidable (Meets C z ops)
  | _, [] => .isTrue trivial
  | z, op :: ops =>
    have : Decidable (∀ z', exec z op = .ok z' → Meets C z' ops) :=
      match exec z op with
      | .error _ => .isTrue nofun
      | .ok z' =>
        have := decidableMeets C z' ops
        decidable_of_iff (Meets C z' ops) ⟨fun h _ he => Except.ok.inj he ▸ h, fun h => h z' rfl⟩
    inferInstanceAs (Decidable (_ ∧ _))

end

section

variable {z : Zskiplist S E} {ns A B : List (Cell S E)}

theorem Rep.itemsFrom_eq (h : Rep z ns) (hns : ns = pre ++ post) (hf : post.length < fuel) :
    itemsFrom z fuel (fwd 0 post) = post.map fun c => (c.score, c.ele) := by
  induction post generalizing pre fuel with
  | nil =>
    obtain _ | fuel := fuel
    · omega
    rfl
  | cons c post ih =>
    obtain _ | fuel := fuel
    · omega
    have hc := h.heights c (by rw [hns]; simp)
    obtain ⟨n, hn, hele, hscore⟩ := h.stored.get (c := c) (by rw [hns]; simp)
    obtain ⟨n', hn', hl⟩ := Option.bind_eq_some_iff.mp ((hns ▸ h.levels).at_node hc.1)
    rw [hn, Option.some.injEq] at hn'
    rw [fwd_cons_of_lt hc.1, itemsFrom, hn]
    dsimp only
    rw [hn', hl, ← hn', hele, hscore]
    change _ :: itemsFrom z fuel (fwd 0 post) = _
    have hns' : ns = pre ++ [c] ++ post := by
      rw [hns]
      simp
    rw [ih hns' (by simp at hf; omega), map_cons]

theorem Rep.items_eq (h : Rep z ns) : items z = ns.map fun c => (c.score, c.ele) := by
  have hlev := h.levels [] ns rfl 0 h.level.1
  have hhead : z.header[0]? = some ⟨fwd 0 ns, dist 0 ns % uintSize⟩ := hlev
  have hle := h.stored.length_le
  rw [items, hhead]
  have hns : ns = [] ++ ns := rfl
  exact h.itemsFrom_eq hns (by omega)

theorem Rep.mem_items (h : Rep z ns) (hc : c ∈ ns) : (c.score, c.ele) ∈ items z := by
  rw [h.items_eq]
  exact mem_map.mpr ⟨c, hc, rfl⟩

theorem dist_le (i : Nat) (l : List (Cell S E)) : dist i l ≤ l.length := by
  induction l with
  | nil => exact le_rfl
  | cons c l ih =>
    rw [dist, length_cons]
    split <;> omega

theorem exists_cut (q : Cell S E → Bool) (h : ns.Pairwise fun a b => q b = true → q a = true) :
    ∃ A B, ns = A ++ B ∧ (∀ c ∈ A, q c = true) ∧ ∀ c ∈ B, q c = false := by
  induction ns with
  | nil => exact ⟨[], [], rfl, by simp, by simp⟩
  | cons c ns ih =>
    obtain ⟨hc, hns⟩ := pairwise_cons.mp h
    cases hq : q c with
    | true =>
      obtain ⟨A, B, rfl, hA, hB⟩ := ih hns
      refine ⟨c :: A, B, rfl, fun d hd => ?_, hB⟩
      rcases mem_cons.mp hd with rfl | hd
      · exact hq
      · exact hA d hd
    | false =>
      refine ⟨[], c :: ns, rfl, by simp, fun d hd => ?_⟩
      rcases mem_cons.mp hd with rfl | hd
      · exact hq
      by_contra hne
      have := hc d hd (by simpa using hne)
      rw [hq] at this
      cases this

theorem passes_of_cut (hA : ∀ c ∈ A, f c.score c.ele = true)
    (hB : ∀ c ∈ B, f c.score c.ele = false) : Passes (fun _ => f) A B :=
  ⟨fun A₁ c A₂ _ h _ => hA c (by rw [h]; simp), fun B₁ c B₂ _ h _ => hB c (by rw [h]; simp)⟩

theorem passes_rank (start : Nat) (hN : ns.length < uintSize) : Passes (S := S) (E := E)
    (fun t _ _ => decide (t < start)) (ns.take (start - 1))
      (ns.drop (start - 1)) := by
  have hns : (ns.take (start - 1) ++ ns.drop (start - 1)).length < uintSize := by
    rw [take_append_drop]
    exact hN
  refine ⟨fun A1 c A2 r h hr => ?_, fun B1 c B2 r h hr => ?_⟩
  · have := congrArg length h
    rw [hr.2 hns]
    simp at this ⊢
    omega
  have := congrArg length h
  rw [hr.2 hns]
  simp at this ⊢
  omega

theorem sublist_suffix (h : B' <:+ B) : (A ++ B').Sublist (A ++ B) :=
  (List.Sublist.refl A).append h.sublist

theorem rep_zslCreate : Rep (zslCreate S E) [] where
  stored := ⟨nodup_nil, fun pre c post h => by simp at h⟩
  levels pre post h i hi := by
    obtain ⟨rfl, rfl⟩ := append_eq_nil_iff.mp h.symm
    have hi : i < 1 := hi
    obtain rfl : i = 0 := by omega
    rfl
  header := length_replicate
  above i _ hi := ⟨0, by simp [lev, zslCreate, hi]⟩
  tail := rfl
  length := rfl
  heights c hc := absurd hc not_mem_nil
  level := ⟨le_rfl, Nat.le_of_ble_eq_true rfl⟩
  top := .inl rfl

end

section

variable [LinearOrder S] [LinearOrder E] {z : Zskiplist S E} {ns : List (Cell S E)}

def below (score : S) (ele : E) (s : S) (e : E) : Bool :=
  decide (s < score) || (decide (s = score) && decide (e < ele))

variable {score : S} {ele : E} {op : Op S E} {ops : List (Op S E)}

theorem below_iff {c : Cell S E} :
    below score ele c.score c.ele = true ↔ c.score < score ∨ (c.score = score ∧ c.ele < ele) := by
  simp [below]

/-- Smaller scores, and of `score` the smaller elements, come first. -/
theorem exists_cut_lex (hs : ns.Pairwise Before) (score : S) (q : E → Bool)
    (hq : ∀ a b, a < b → q b = true → q a = true) : ∃ A B, ns = A ++ B ∧
      (∀ c ∈ A, (decide (c.score < score) || (decide (c.score = score) && q c.ele)) = true) ∧
      ∀ c ∈ B, (decide (c.score < score) || (decide (c.score = score) && q c.ele)) = false := by
  refine exists_cut (fun c => decide (c.score < score) || (decide (c.score = score) && q c.ele))
    (hs.imp fun {a b} hab hb => ?_)
  simp only [Bool.or_eq_true, Bool.and_eq_true, decide_eq_true_eq] at hb ⊢
  rcases hab with hab | ⟨hab, hab'⟩ <;> rcases hb with hb | ⟨hb, hb'⟩
  · exact .inl (hab.trans hb)
  · exact .inl (hb ▸ hab)
  · exact .inl (hab ▸ hb)
  · exact .inr ⟨hab.trans hb, hq _ _ hab' hb'⟩

theorem exists_cut_below (hs : ns.Pairwise Before) (score : S) (ele : E) :
    ∃ A B, ns = A ++ B ∧ (∀ c ∈ A, below score ele c.score c.ele = true) ∧
      ∀ c ∈ B, below score ele c.score c.ele = false :=
  exists_cut_lex hs score (fun e => decide (e < ele)) fun a b hab hb => by
    simp only [decide_eq_true_eq] at hb ⊢
    exact hab.trans hb

theorem sorted_insert {A B : List (Cell S E)} {x : Cell S E} (hs : (A ++ B).Pairwise Before)
    (hA : ∀ c ∈ A, below x.score x.ele c.score c.ele = true)
    (hB : ∀ c ∈ B, below x.score x.ele c.score c.ele = false) (hne : ∀ c ∈ B, c.ele ≠ x.ele) :
    (A ++ x :: B).Pairwise Before := by
  obtain ⟨hsA, hsB, hAB⟩ := pairwise_append.mp hs
  refine pairwise_append.mpr ⟨hsA, pairwise_cons.mpr ⟨fun c hc => ?_, hsB⟩, fun a ha c hc => ?_⟩
  · have hnot : ¬ (c.score < x.score ∨ (c.score = x.score ∧ c.ele < x.ele)) := by
      rw [← below_iff, hB c hc]
      simp
    rw [not_or, not_and] at hnot
    rcases lt_or_eq_of_le (not_lt.mp hnot.1) with h | h
    · exact .inl h
    · exact .inr ⟨h, lt_of_le_of_ne (not_lt.mp (hnot.2 h.symm)) (Ne.symm (hne c hc))⟩
  rcases mem_cons.mp hc with rfl | hc
  · exact below_iff.mp (hA a ha)
  · exact hAB a ha c hc

theorem lex_mono {range : Lexrangespec E} {a b : E} (h : a < b)
    (ha : zslLexValueGteMin a range = true) : zslLexValueGteMin b range = true := by
  unfold zslLexValueGteMin at ha ⊢
  cases hm : range.min with
  | minstring => simp [sdscmplex]
  | maxstring =>
    rw [hm] at ha
    simp [sdscmplex] at ha
  | value m =>
    rw [hm] at ha
    split at ha
    · next hex =>
      rw [if_pos hex]
      simp only [sdscmplex, decide_eq_true_eq, compare_gt_iff_gt] at ha ⊢
      exact lt_trans ha h
    next hex =>
    rw [if_neg hex]
    simp only [sdscmplex, decide_eq_true_eq, ne_eq, compare_lt_iff_lt, not_lt] at ha ⊢
    exact le_trans ha (le_of_lt h)

section

variable (h : Rep z ns) (hs : ns.Pairwise Before)
include h hs

/-- An insertion puts the node between the smaller and the greater ones. -/
theorem exec_insert_ok {level : Nat} (hop : OpOk z (.insert score ele level)) :
    ∃ z' A B, exec z (.insert score ele level) = .ok z' ∧ ns = A ++ B ∧
      (∀ c ∈ B, below score ele c.score c.ele = false) ∧
      Rep z' (A ++ ⟨z.nodes.next, score, ele, level⟩ :: B) ∧
      (A ++ ⟨z.nodes.next, score, ele, level⟩ :: B).Pairwise Before := by
  obtain ⟨A, B, rfl, hA, hB⟩ := exists_cut_below hs score ele
  obtain ⟨hl1, hl2, hnew⟩ := hop
  obtain ⟨z', hz', hrep⟩ := zslInsert_ok h ⟨hl1, hl2⟩ (passes_of_cut hA hB)
  refine ⟨z', A, B, hz', rfl, hB, hrep, sorted_insert hs hA hB fun c hc => ?_⟩
  exact hnew _ (h.mem_items (by simp [hc]))

/-- **One call.** The deletion of ranks reads the spans, which must not have wrapped. -/
theorem exec_ok (hop : OpOk z op)
    (hN : ns.length < uintSize ∨ ∃ score ele level, op = .insert score ele level) :
    ∃ z' ns', exec z op = .ok z' ∧ Rep z' ns' ∧ ns'.Pairwise Before ∧
      (ns'.Sublist ns ∨ ∃ score ele level A B, op = .insert score ele level ∧ ns = A ++ B ∧
        ns' = A ++ ⟨z.nodes.next, score, ele, level⟩ :: B) := by
  -- a deletion of a range after a cut
  have hrange : ∀ {pass : Nat → S → E → Bool} (inRange : Nat → S → E → Bool) {A B}, ns = A ++ B →
      Passes pass A B → ∃ z' ns', (do .ok (← deleteRange z pass inRange).1) = .ok z' ∧
        Rep z' ns' ∧ ns'.Pairwise Before ∧ ns'.Sublist ns := by
    rintro pass inRange A B rfl hpass
    obtain ⟨z', r, B', hz', hsuf, hrep⟩ := deleteRange_ok inRange h hpass
    exact ⟨z', A ++ B', by rw [hz', ok_bind], hrep, hs.sublist (sublist_suffix hsuf),
      sublist_suffix hsuf⟩
  cases op with
  | insert score ele level =>
    obtain ⟨z', A, B, hz', rfl, -, hrep, hsorted⟩ := exec_insert_ok h hs hop
    exact ⟨z', _, hz', hrep, hsorted, .inr ⟨_, _, _, A, B, rfl, rfl, rfl⟩⟩
  | delete score ele =>
    obtain ⟨A, B, rfl, hA, hB⟩ := exists_cut_below hs score ele
    obtain ⟨z', r, B', hz', hsuf, hrep⟩ := zslDelete_ok h (passes_of_cut hA hB)
    exact ⟨z', A ++ B', by rw [exec, hz', ok_bind], hrep, hs.sublist (sublist_suffix hsuf),
      .inl (sublist_suffix hsuf)⟩
  | deleteRangeByScore range =>
    obtain ⟨A, B, hns, hA, hB⟩ := exists_cut
      (fun c : Cell S E =>
        if range.minex then decide (c.score ≤ range.min) else decide (c.score < range.min))
      (hs.imp fun {a b} hab hb => by
        have hle : a.score ≤ b.score := hab.elim le_of_lt fun h => le_of_eq h.1
        split at hb
        · next hex =>
          rw [if_pos hex]
          exact decide_eq_true (le_trans hle (of_decide_eq_true hb))
        next hex =>
        rw [if_neg hex]
        exact decide_eq_true (lt_of_le_of_lt hle (of_decide_eq_true hb)))
    obtain ⟨z', ns', h1, h2, h3, h4⟩ := hrange
      (fun _ s _ => if range.maxex then decide (s < range.max) else decide (s ≤ range.max)) hns
      (passes_of_cut (f := fun s _ =>
        if range.minex then decide (s ≤ range.min) else decide (s < range.min)) hA hB)
    exact ⟨z', ns', h1, h2, h3, .inl h4⟩
  | deleteRangeByLex range =>
    have heq : ∀ a ∈ ns, ∀ b ∈ ns, a.score = b.score := fun a ha b hb =>
      hop _ (h.mem_items ha) _ (h.mem_items hb)
    obtain ⟨A, B, hns, hA, hB⟩ := exists_cut
      (fun c : Cell S E => !zslLexValueGteMin c.ele range)
      (hs.imp_of_mem fun {a b} ha hb hab hnot => by
        have hlt : a.ele < b.ele := hab.elim
          (fun h => absurd (heq a ha b hb) (ne_of_lt h)) And.right
        rcases hga : zslLexValueGteMin a.ele range with _ | _
        · rfl
        rw [lex_mono hlt hga] at hnot
        cases hnot)
    obtain ⟨z', ns', h1, h2, h3, h4⟩ := hrange (fun _ _ e => zslLexValueLteMax e range) hns
      (passes_of_cut (f := fun _ e => !zslLexValueGteMin e range) hA hB)
    exact ⟨z', ns', h1, h2, h3, .inl h4⟩
  | deleteRangeByRank start stop =>
    have hN : ns.length < uintSize := hN.resolve_right (by simp)
    obtain ⟨z', ns', h1, h2, h3, h4⟩ := hrange (fun t _ _ => decide (t ≤ stop))
      (take_append_drop (start - 1) ns).symm (passes_rank start hN)
    exact ⟨z', ns', h1, h2, h3, .inl h4⟩

theorem Rep.skiplistOk (hN : ns.length < uintSize) : SkiplistOk z ns := by
  refine ⟨hs, h.stored.nodup, fun pre post hns i hi => ?_, h.stored.node, h.tail, h.length, h.heights,
    h.level.1, h.top⟩
  have hle := dist_le i post
  have hlen : post.length ≤ ns.length := by
    rw [hns]
    simp
  rw [h.levels pre post hns i hi, Nat.mod_eq_of_lt (by omega)]

end

theorem run_rep (hr : Rep z ns) (hs : ns.Pairwise Before)
    (hd : (ns.map Cell.ele).Nodup) (hN : ns.length < uintSize) (hm : Meets Fits z ops) :
    ∃ z' ns', run z ops = .ok z' ∧ Rep z' ns' ∧ ns'.Pairwise Before ∧ (ns'.map Cell.ele).Nodup ∧
      ns'.length < uintSize := by
  induction ops generalizing z ns with
  | nil => exact ⟨z, ns, rfl, hr, hs, hd, hN⟩
  | cons op ops ih =>
    obtain ⟨⟨hop, hfit⟩, hrest⟩ := hm
    obtain ⟨z1, ns1, hz1, hr1, hs1, hns1⟩ := exec_ok hr hs hop (.inl hN)
    have hok : (ns1.map Cell.ele).Nodup ∧ ns1.length < uintSize := by
      rcases hns1 with hsub | ⟨score, ele, level, A, B, rfl, rfl, rfl⟩
      · exact ⟨hd.sublist (hsub.map _), lt_of_le_of_lt hsub.length_le hN⟩
      have hlen := hfit score ele level rfl
      rw [hr.length] at hlen
      have hnew : ele ∉ (A ++ B).map Cell.ele := by
        intro hmem
        obtain ⟨c, hc, rfl⟩ := mem_map.mp hmem
        exact hop.2.2 _ (hr.mem_items hc) rfl
      have hperm : ((A ++ ⟨z.nodes.next, score, ele, level⟩ :: B).map Cell.ele).Perm
          (ele :: (A ++ B).map Cell.ele) := perm_middle.map _
      refine ⟨hperm.nodup_iff.mpr (nodup_cons.mpr ⟨hnew, hd⟩), ?_⟩
      simp at hlen ⊢
      omega
    obtain ⟨z', ns', hz', hrest'⟩ := ih hr1 hs1 hok.1 hok.2 (hrest z1 hz1)
    refine ⟨z', ns', ?_, hrest'⟩
    rw [run, foldlM_cons, hz1, ok_bind]
    exact hz'

/-- **The representation of skiplists.** Every run of insertions, deletions and deletions of ranges in
which the list has fewer than `2 ^ 32` nodes returns, and leaves a skiplist with sorted nodes whose
pointers and spans, on all levels, are those of the list. -/
theorem run_skiplistOk {ops : List (Op S E)} (h : Meets Fits (zslCreate S E) ops) :
    ∃ z ns, run (zslCreate S E) ops = .ok z ∧ SkiplistOk z ns := by
  obtain ⟨z, ns, hz, hr, hs, -, hN⟩ := run_rep rep_zslCreate List.Pairwise.nil nodup_nil
    (Nat.succ_pos _) h
  exact ⟨z, ns, hz, hr.skiplistOk hs hN⟩

theorem meets_concat
    (h : Meets C z ops) (hop : ∀ z', run z ops = .ok z' → C z' op) : Meets C z (ops ++ [op]) := by
  induction ops generalizing z with
  | nil => exact ⟨hop z rfl, fun _ _ => trivial⟩
  | cons o ops ih =>
    refine ⟨h.1, fun z1 hz1 => ih (h.2 z1 hz1) fun z' hz' => hop z' ?_⟩
    rw [run, foldlM_cons, hz1, ok_bind]
    exact hz'

theorem run_concat (h : run z ops = .ok z') (op : Op S E) : run z (ops ++ [op]) = exec z' op := by
  rw [run] at h
  rw [run, foldlM_append, h, ok_bind, foldlM_cons]
  cases exec z' op <;> rfl

end

/-- Eight nodes of one to four levels, of which two are deleted. -/
def mixedHeights : List (Op Nat Nat) :=
  [.insert 4 40 1, .insert 1 10 3, .insert 6 60 2, .insert 2 20 1, .insert 7 70 4, .insert 3 30 2,
    .insert 5 50 1, .insert 8 80 2, .delete 4 40, .deleteRangeByRank 6 6]

theorem run_skiplistOk_mixedHeights :
    ∃ z ns, run (zslCreate Nat Nat) mixedHeights = .ok z ∧ SkiplistOk z ns :=
  run_skiplistOk (by decide +kernel)

example : (items <$> run (zslCreate Nat Nat) mixedHeights) =
    .ok [(1, 10), (2, 20), (3, 30), (5, 50), (6, 60), (8, 80)] := by
  decide +kernel

/-- The numbers below `n`, each in a node of one level. -/
def ascending (n : Nat) : List (Op Nat Nat) := (List.range n).map fun i => .insert i i 1

theorem opOk_insert {z : Zskiplist Nat Nat} {ns : List (Cell Nat Nat)} {n level : Nat} (h : Rep z ns)
    (hall : ∀ c ∈ ns, c.ele < n) (hlevel : 1 ≤ level ∧ level ≤ maxLevel) :
    OpOk z (.insert n n level) := by
  refine ⟨hlevel.1, hlevel.2, fun a ha => ?_⟩
  rw [h.items_eq] at ha
  obtain ⟨c, hc, rfl⟩ := mem_map.mp ha
  exact ne_of_lt (hall c hc)

theorem ascending_ok (n : Nat) : ∃ z ns, run (zslCreate Nat Nat) (ascending n) = .ok z ∧
    Meets OpOk (zslCreate Nat Nat) (ascending n) ∧ Rep z ns ∧ ns.Pairwise Before ∧
      ns.length = n ∧ ∀ c ∈ ns, c.score < n ∧ c.ele < n ∧ c.height = 1 := by
  induction n with
  | zero => exact ⟨_, [], rfl, trivial, rep_zslCreate, .nil, rfl, by simp⟩
  | succ n ih =>
    obtain ⟨z, ns, hz, hm, hr, hs, hlen, hall⟩ := ih
    have hop : OpOk z (.insert n n 1) := opOk_insert hr (fun c hc => (hall c hc).2.1) (by decide)
    obtain ⟨z', A, B, hz', rfl, -, hr', hs'⟩ := exec_insert_ok hr hs hop
    have hsucc : ascending (n + 1) = ascending n ++ [.insert n n 1] := by
      rw [ascending, range_succ, map_append]
      rfl
    rw [hsucc]
    refine ⟨z', _, (run_concat hz _).trans hz', meets_concat hm fun z'' h'' => ?_, hr', hs', ?_,
      fun c hc => ?_⟩
    · rw [hz, Except.ok.injEq] at h''
      rw [← h'']
      exact hop
    · simp at hlen ⊢
      omega
    rcases mem_append.mp hc with hc | hc
    · obtain ⟨h1, h2, h3⟩ := hall c (by simp [hc])
      exact ⟨by omega, by omega, h3⟩
    rcases mem_cons.mp hc with rfl | hc
    · exact ⟨Nat.lt_succ_self n, Nat.lt_succ_self n, rfl⟩
    obtain ⟨h1, h2, h3⟩ := hall c (by simp [hc])
    exact ⟨by omega, by omega, h3⟩

theorem ascending_tall (n : Nat) : ∃ z A a,
    Meets OpOk (zslCreate Nat Nat) (ascending n ++ [.insert n n 2]) ∧
      run (zslCreate Nat Nat) (ascending n ++ [.insert n n 2]) = .ok z ∧
      Rep z (A ++ [⟨a, n, n, 2⟩]) ∧ A.length = n ∧ ∀ c ∈ A, c.score < n ∧ c.ele < n ∧ c.height = 1 := by
  obtain ⟨z, ns, hz, hm, hr, hs, hlen, hall⟩ := ascending_ok n
  have hop : OpOk z (.insert n n 2) := opOk_insert hr (fun c hc => (hall c hc).2.1) (by decide)
  obtain ⟨z', A, B, hz', rfl, hB, hr', -⟩ := exec_insert_ok hr hs hop
  -- all numbers are smaller than the last one
  have hnil : B = [] := by
    obtain _ | ⟨c, B⟩ := B
    · rfl
    have hfalse := hB c (by simp)
    rw [below_iff.mpr (.inl (hall c (by simp)).1)] at hfalse
    cases hfalse
  subst hnil
  rw [append_nil] at hlen hall
  refine ⟨z', A, z.nodes.next, meets_concat hm fun z'' h'' => ?_, (run_concat hz _).trans hz', hr',
    hlen, hall⟩
  rw [hz, Except.ok.injEq] at h''
  rw [← h'']
  exact hop

theorem lev_header_tall {z A} {a n : Nat}
    (h : Rep z (A ++ [⟨a, n, n, 2⟩])) (hA : ∀ c ∈ A, c.height = 1) :
    1 < z.level ∧ lev z .header 1 = some ⟨some a, (A.length + 1) % uintSize⟩ := by
  have hlevel : 1 < z.level := (h.heights ⟨a, n, n, 2⟩ (by simp)).2
  have hlow : Low 1 A := fun c hc => le_of_eq (hA c hc)
  have h2 : 1 < (⟨a, n, n, 2⟩ : Cell Nat Nat).height := Nat.lt_succ_self 1
  have hlev := h.levels [] (A ++ [⟨a, n, n, 2⟩]) rfl 1 hlevel
  rw [fwd_append_low hlow, dist_append_low hlow, fwd_cons_of_lt h2, dist_cons_of_lt h2] at hlev
  exact ⟨hlevel, hlev⟩

/-- The first node of level 2 is the `2 ^ 32`-th: its distance does not fit into the span. -/
theorem span_wraps : ∃ ops z, Meets OpOk (zslCreate Nat Nat) ops ∧
    run (zslCreate Nat Nat) ops = .ok z ∧ ∀ ns, ¬ SkiplistOk z ns := by
  obtain ⟨n, hn⟩ : ∃ n, n + 1 = uintSize := ⟨4294967295, rfl⟩
  obtain ⟨z, A, a, hm, hz, hr, hlen, hall⟩ := ascending_tall n
  obtain ⟨hlevel, hlev⟩ := lev_header_tall hr fun c hc => (hall c hc).2.2
  refine ⟨_, z, hm, hz, fun ns hok => ?_⟩
  have hspan := hok.levels [] ns rfl 1 hlevel
  rw [place_nil, hlev, hlen, hn, Nat.mod_self, Option.some.injEq, Level.mk.injEq] at hspan
  obtain _ | ⟨c, ns⟩ := ns
  · cases hspan.1
  have := hspan.2
  rw [dist] at this
  split at this <;> omega

end UfsRedis.Skiplist
