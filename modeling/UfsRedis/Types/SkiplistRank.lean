import UfsRedis.Types.SkiplistRun
import UfsRedis.Keyspace.DictMap

/-!
# Ranks

The functions of `src/t_zset.c` that add up spans: `zslGetRank`, `zslGetElementByRank`, and
`zslDeleteRangeByRank` with the dict that it deletes from.
-/

namespace UfsRedis.Skiplist

open List Keyspace

variable {S E : Type}

/-! ## The functions -/

/-- A walk down the levels below `i`, which ends where `stop` gives a result. -/
def walkLevels {α : Type} (z : Zskiplist S E) (pass : Nat → S → E → Bool)
    (stop : At → Nat → Except Fault (Option α)) : Nat → At → Nat → Except Fault (Option α)
  | 0, _, _ => .ok none
  | i + 1, x, rank => do
    let (x, rank) ← advance z pass i (z.nodes.next + 1) x rank
    match ← stop x rank with
    | some r => .ok (some r)
    | none => walkLevels z pass stop i x rank

/-- `x->ele && sdscmp(x->ele,ele) == 0`; the header has no element. -/
def hasEle [DecidableEq E] (z : Zskiplist S E) (ele : E) : At → Except Fault Bool
  | .header => .ok false
  | .node a => do .ok (decide ((← node z a).ele = ele))

/-- `zslGetRank(zsl,score,ele)`. -/
def zslGetRank [LinearOrder S] [LinearOrder E] (z : Zskiplist S E) (score : S) (ele : E) :
    Except Fault Nat := do
  let rank ← walkLevels z
    (fun _ s e => decide (s < score) || (decide (s = score) && decide (e ≤ ele)))
    (fun x rank => do if ← hasEle z ele x then .ok (some rank) else .ok none) z.level .header 0
  .ok (rank.getD 0)

/-- `zslGetElementByRank(zsl,rank)`; `none` is `NULL`. -/
def zslGetElementByRank (z : Zskiplist S E) (rank : Nat) : Except Fault (Option At) :=
  walkLevels z (fun traversed _ _ => decide (traversed ≤ rank))
    (fun x traversed => .ok (if traversed = rank then some x else none)) z.level .header 0

/-- The loop of `zslDeleteRangeByRank`, with the dict. -/
def deleteRanks [DecidableEq E] {V : Type} (hash : E → Nat) (stop : Nat) (update : List (At × Nat)) :
    Nat → Nat → Option Nat → Zskiplist S E → Dict E V → Except Fault (Zskiplist S E × Dict E V × Nat)
  | 0, _, _, _, _ => .error .noFuel
  | _ + 1, _, none, z, d => .ok (z, d, 0)
  | fuel + 1, traversed, some x, z, d =>
    if traversed ≤ stop then do
      let next := (← readLevel z (.node x) 0).forward
      let z ← zslDeleteNode z x update
      let (d, _) ← dictDelete hash d (← node z x).ele
      let (z, d, removed) ← deleteRanks hash stop update fuel (traversed + 1) next (zslFreeNode z x) d
      .ok (z, d, removed + 1)
    else .ok (z, d, 0)

/-- `zslDeleteRangeByRank(zsl,start,end,dict)`, with the dict. -/
def zslDeleteRanks [DecidableEq E] {V : Type} (hash : E → Nat) (z : Zskiplist S E)
    (start stop : Nat) (d : Dict E V) : Except Fault (Zskiplist S E × Dict E V × Nat) := do
  let update ← search z fun traversed _ _ => decide (traversed < start)
  match update with
  | [] => .error .indexBounds
  | (_, traversed) :: _ =>
    deleteRanks hash stop update (z.nodes.next + 1) (traversed + 1) (← afterSearch z update) z d

variable {z : Zskiplist S E} {A B ns : List (Cell S E)}

/-! ## Walks -/

section

variable {α : Type} {A B : List (Cell S E)} {pass : Nat → S → E → Bool}
  {stop : At → Nat → Except Fault (Option α)} {g : List (Cell S E) → Option α}

variable (h : Rep z (A ++ B)) (hpass : Passes pass A B) (hN : (A ++ B).length < uintSize)
  (hstop : ∀ P M, A = P ++ M → stop (place P) P.length = .ok (g P))
  (honly : ∀ P M, A = P ++ M → M ≠ [] → g P = none)
include h hpass hN hstop honly

/-- **A walk down the levels** that passes the nodes `A` gives what `stop` gives at their end, if
`stop` gives nothing before it. -/
theorem walkLevels_ok
    (hA : A = pre ++ mid) (hn : n ≤ hgt z.level pre) (hend : n = 0 → mid = [] ∧ g A = none) :
    walkLevels z pass stop n (place pre) pre.length = .ok (g A) := by
  induction n generalizing pre mid with
  | zero => rw [(hend rfl).2, walkLevels]
  | succ n ih =>
    have hfuel : mid.length < z.nodes.next + 1 := by
      have := h.stored.length_le
      rw [hA] at this
      simp at this
      omega
    obtain ⟨p, r, hadv, hlast⟩ := advance_ok h.levels h.stored hpass hA hfuel (i := n) (by omega)
      ⟨rfl, fun _ => rfl⟩
    obtain ⟨P, M, rfl, hP, hlow, hgtP, hr⟩ := hlast.exists_place
    rw [walkLevels, hadv, ok_bind, hr.2 hN]
    dsimp only
    rw [hstop P M hP, ok_bind]
    cases hg : g P with
    | some v =>
      -- it stops, so this is the end
      have hM : M = [] := by
        by_contra hM
        rw [honly P M hP hM] at hg
        cases hg
      rw [hM, append_nil] at hP
      rw [hP, hg]
    | none =>
      refine ih hP (le_of_lt hgtP) fun hn0 => ?_
      rw [hn0] at hlow
      have hM : M = [] := hlow.eq_nil fun c hc => (h.heights c (by rw [hP]; simp [hc])).1
      rw [hM, append_nil] at hP
      exact ⟨hM, by rw [hP, hg]⟩

theorem walk_ok : walkLevels z pass stop z.level .header 0 = .ok (g A) := by
  have hA : A = [] ++ A := rfl
  have hlevel := h.level.1
  exact walkLevels_ok h hpass hN hstop honly hA le_rfl fun h0 => by omega

end

/-! ## The rank of an element -/

section

variable [LinearOrder E]

/-- The rank that is found at the end of the nodes `P`. -/
def rankAt (ele : E) (P : List (Cell S E)) : Option Nat :=
  if P.getLast?.any (fun c => decide (c.ele = ele)) then some P.length else none

theorem hasEle_place (h : Rep z ns) (ele : E) (hns : ns = P ++ M) :
    hasEle z ele (place P) = .ok (P.getLast?.any fun c => decide (c.ele = ele)) := by
  rcases eq_nil_or_concat' P with rfl | ⟨P, c, rfl⟩
  · rfl
  obtain ⟨n, hn, hele, -⟩ := h.stored.get (c := c) (by rw [hns]; simp)
  rw [place_concat, hasEle, node, hn, deref_some, ok_bind, hele]
  simp

variable [LinearOrder S]

theorem exists_cut_upTo (hs : ns.Pairwise Before) (score : S) (ele : E) : ∃ A B, ns = A ++ B ∧
      (∀ c ∈ A, c.score < score ∨ (c.score = score ∧ c.ele ≤ ele)) ∧
      (∀ c ∈ B, ¬ (c.score < score ∨ (c.score = score ∧ c.ele ≤ ele))) ∧
      Passes (fun _ s e => decide (s < score) || (decide (s = score) && decide (e ≤ ele))) A B := by
  obtain ⟨A, B, hns, hA, hB⟩ := exists_cut_lex hs score (fun e => decide (e ≤ ele)) fun a b hab hb => by
    simp only [decide_eq_true_eq] at hb ⊢
    exact hab.le.trans hb
  exact ⟨A, B, hns, fun c hc => by simpa using hA c hc, fun c hc => by simpa using hB c hc,
    passes_of_cut hA hB⟩

theorem zslGetRank_eq (h : Rep z (A ++ B)) (hN : (A ++ B).length < uintSize)
    (hpass : Passes (fun _ s e => decide (s < score) || (decide (s = score) && decide (e ≤ ele))) A B)
    (honly : ∀ P M, A = P ++ M → M ≠ [] → rankAt ele P = none) :
    zslGetRank z score ele = .ok ((rankAt ele A).getD 0) := by
  have hwalk := @walk_ok _ _ _ _ _ _ _
    (fun x rank => do if ← hasEle z ele x then .ok (some rank) else .ok none) (rankAt ele) h hpass hN
    (fun P M hP => by
      rw [hasEle_place h ele (M := M ++ B) (by rw [hP, append_assoc]), ok_bind, rankAt]
      split <;> rfl) honly
  rw [zslGetRank, hwalk, ok_bind]

theorem zslGetRank_stored (h : Rep z ns) (hs : ns.Pairwise Before) (hd : (ns.map Cell.ele).Nodup)
    (hN : ns.length < uintSize)
    (hns : ns = pre ++ c :: post) : zslGetRank z c.score c.ele = .ok (pre.length + 1) := by
  obtain ⟨A, B, rfl, hA, hB, hpass⟩ := exists_cut_upTo hs c.score c.ele
  obtain ⟨-, hcpost, hprec⟩ := pairwise_append.mp (hns ▸ hs)
  -- the nodes up to `c` are passed
  have hAB : A = pre ++ [c] ∧ B = post := by
    have hcut : ∀ d ∈ post, ¬ (d.score < c.score ∨ (d.score = c.score ∧ d.ele ≤ c.ele)) := by
      intro d hd
      rcases (pairwise_cons.mp hcpost).1 d hd with hlt | ⟨heq, hlt⟩
      · rintro (hlt' | ⟨heq, -⟩)
        · exact lt_asymm hlt hlt'
        · exact absurd hlt (heq ▸ lt_irrefl _)
      rintro (hlt' | ⟨-, hle⟩)
      · exact absurd hlt' (heq ▸ lt_irrefl _)
      · exact not_lt_of_ge hle hlt
    have hpre : ∀ d ∈ pre ++ [c], d.score < c.score ∨ (d.score = c.score ∧ d.ele ≤ c.ele) := by
      intro d hd
      rcases mem_append.mp hd with hd | hd
      · exact (hprec d hd c (by simp)).imp_right fun h => ⟨h.1, h.2.le⟩
      rw [mem_singleton.mp hd]
      exact .inr ⟨rfl, le_refl _⟩
    have hns' : A ++ B = (pre ++ [c]) ++ post := by rw [hns]; simp
    rcases append_eq_append_iff.mp hns' with ⟨D, h1, h2⟩ | ⟨D, h1, h2⟩
    · cases D with
      | nil => exact ⟨by simpa using h1.symm, by simpa using h2⟩
      | cons d D => exact absurd (hpre d (by rw [h1]; simp)) (hB d (by rw [h2]; simp))
    cases D with
    | nil => exact ⟨by simpa using h1, by simpa using h2.symm⟩
    | cons d D => exact absurd (hA d (by rw [h1]; simp)) (hcut d (by rw [h2]; simp))
  obtain ⟨rfl, rfl⟩ := hAB
  rw [zslGetRank_eq h hN hpass fun P M hP hM => ?_]
  · simp [rankAt]
  -- another node with this element would be `c`
  rcases eq_nil_or_concat' P with rfl | ⟨P, d, rfl⟩
  · rfl
  rcases eq_nil_or_concat' M with rfl | ⟨M, e, rfl⟩
  · exact absurd rfl hM
  rw [← append_assoc] at hP
  obtain ⟨hpre, he⟩ := append_inj' hP rfl
  rw [hpre] at hd
  have hne : d.ele ≠ c.ele := by
    intro heq
    simp only [map_append, map_cons, map_nil, append_assoc, heq] at hd
    rw [nodup_append] at hd
    simpa using hd.2.1
  simp [rankAt, hne]

theorem zslGetRank_absent (h : Rep z ns) (hs : ns.Pairwise Before) (hN : ns.length < uintSize)
    (hele : ∀ c ∈ ns, c.ele ≠ ele) (score : S) : zslGetRank z score ele = .ok 0 := by
  obtain ⟨A, B, rfl, -, -, hpass⟩ := exists_cut_upTo hs score ele
  have hnone : ∀ P M, A = P ++ M → rankAt ele P = none := by
    intro P M hP
    rcases eq_nil_or_concat' P with rfl | ⟨P, d, rfl⟩
    · rfl
    have := hele d (by rw [hP]; simp)
    simp [rankAt, this]
  rw [zslGetRank_eq h hN hpass fun P M hP _ => hnone P M hP, hnone A [] (by simp)]
  rfl

end

/-! ## The element of a rank -/

section

variable (h : Rep z ns) (hN : ns.length < uintSize)
include h hN

theorem zslGetElementByRank_eq (rank : Nat) : zslGetElementByRank z rank =
      .ok (if (ns.take rank).length = rank then some (place (ns.take rank)) else none) := by
  have hns : ns.take rank ++ ns.drop rank = ns := take_append_drop rank ns
  -- a rank is passed iff it is less than the next one
  have hpass : Passes (S := S) (E := E) (fun t _ _ => decide (t ≤ rank)) (ns.take rank)
      (ns.drop rank) := by
    have := @passes_rank _ _ ns (rank + 1) hN
    simpa only [Nat.add_sub_cancel, Nat.lt_succ_iff] using this
  refine walk_ok (g := fun P => if P.length = rank then some (place P) else none) (hns.symm ▸ h) hpass
    (hns.symm ▸ hN) (fun P M _ => rfl) fun P M hP hM => ?_
  have hlen := congrArg List.length hP
  have hpos : 0 < M.length := length_pos_iff.mpr hM
  rw [length_take, length_append] at hlen
  exact if_neg (by omega)

theorem zslGetElementByRank_stored (hns : ns = pre ++ c :: post) :
    zslGetElementByRank z (pre.length + 1) = .ok (some (.node c.addr)) := by
  have htake : ns.take (pre.length + 1) = pre ++ [c] := by
    rw [hns, take_length_add_append]
    rfl
  rw [zslGetElementByRank_eq h hN, htake, place_concat, if_pos (by simp)]

theorem zslGetElementByRank_beyond
    (hr : ns.length < rank) : zslGetElementByRank z rank = .ok none := by
  rw [zslGetElementByRank_eq h hN, if_neg (by rw [length_take]; omega)]

end

/-! ## The deletion of ranks -/

section

variable [DecidableEq E] {V : Type} {hash : E → Nat} {d : Dict E V}
  {m : Finmap fun _ : E => Option V}

/-- The map without the elements of the nodes `l`. -/
def eraseAll (m : Finmap fun _ : E => Option V) (l : List (Cell S E)) :
    Finmap fun _ : E => Option V := l.foldl (fun m c => m.erase c.ele) m

theorem lookup_eraseAll (l : List (Cell S E)) (m : Finmap fun _ : E => Option V) (k : E) :
    (eraseAll m l).lookup k = if k ∈ l.map Cell.ele then none else m.lookup k := by
  induction l generalizing m with
  | nil => simp [eraseAll]
  | cons c l ih =>
    have hstep : eraseAll m (c :: l) = eraseAll (m.erase c.ele) l := rfl
    rw [hstep, ih]
    by_cases hk : k = c.ele
    · subst hk
      simp
    rw [Finmap.lookup_erase_ne hk]
    simp [hk]

theorem deleteRanks_ok {u} {fuel t : Nat} (stop : Nat) (h : Rep z (A ++ B))
    (hu : Updates z.level A u) (hf : B.length < fuel) (hd : d.Shape hash) (hm : d.Represents m) :
    ∃ z' d', deleteRanks hash stop u fuel t (fwd 0 B) z d =
        .ok (z', d', (B.take (stop + 1 - t)).length) ∧
      deleteWhile (fun traversed _ _ => decide (traversed ≤ stop)) u fuel t (fwd 0 B) z =
        .ok (z', (B.take (stop + 1 - t)).length) ∧
      Rep z' (A ++ B.drop (stop + 1 - t)) ∧ d'.Shape hash ∧
      d'.Represents (eraseAll m (B.take (stop + 1 - t))) := by
  induction fuel generalizing z B t d m with
  | zero => omega
  | succ fuel ih =>
    obtain _ | ⟨c, B⟩ := B
    · exact ⟨z, d, by simp [fwd, deleteRanks], by simp [fwd, deleteWhile], by simpa using h, hd,
        by simpa [eraseAll] using hm⟩
    have hc1 := (h.heights c (by simp)).1
    obtain ⟨m0, hm0, -⟩ := Option.map_eq_some_iff.mp (h.stored.node A c B rfl)
    rw [fwd_cons_of_lt hc1, deleteRanks, deleteWhile, node, hm0, deref_some, ok_bind]
    by_cases hr : t ≤ stop
    · obtain ⟨z1, hz1, hrep, hlevel, -, hinfo⟩ := zslDeleteNode_ok h hu
      rw [h.stored.node A c B rfl] at hinfo
      obtain ⟨n, hn, hinfo⟩ := Option.map_eq_some_iff.mp hinfo
      have hele : n.ele = c.ele := congrArg Prod.fst hinfo
      obtain ⟨d1, hd1, hshape, hmap⟩ := dictDelete_spec hd hm c.ele
      obtain ⟨z', d', hz', hw', hrep', hd', hm'⟩ := ih (t := t + 1) hrep (hu.lower hlevel)
        (by simp at hf; omega) hshape hmap
      have hcount : stop + 1 - t = stop + 1 - (t + 1) + 1 := by omega
      rw [hcount, take_succ_cons, drop_succ_cons]
      rw [if_pos hr, if_pos (decide_eq_true hr), readLevel_eq (h.levels.at_node hc1), ok_bind, hz1,
        ok_bind, ok_bind, ok_bind, node, hn, deref_some, ok_bind, hele, hd1, ok_bind]
      dsimp only
      rw [hz', hw', ok_bind, ok_bind, length_cons]
      exact ⟨z', d', rfl, rfl, hrep', hd', hm'⟩
    have hcount : stop + 1 - t = 0 := by omega
    rw [hcount, if_neg hr, if_neg (by simpa using hr)]
    exact ⟨z, d, rfl, rfl, h, hd, hm⟩

/-- The dict has no part in what happens to the skiplist. -/
theorem zslDeleteRanks_ok (h : Rep z ns) (hN : ns.length < uintSize) (start stop : Nat)
    (hd : d.Shape hash) (hm : d.Represents m) : ∃ z' d', zslDeleteRanks hash z start stop d =
        .ok (z', d', ((ns.drop (start - 1)).take (stop - (start - 1))).length) ∧
      zslDeleteRangeByRank z start stop =
        .ok (z', ((ns.drop (start - 1)).take (stop - (start - 1))).length) ∧
      Rep z' (ns.take (start - 1) ++ (ns.drop (start - 1)).drop (stop - (start - 1))) ∧
      d'.Shape hash ∧
      d'.Represents (eraseAll m ((ns.drop (start - 1)).take (stop - (start - 1)))) := by
  have hns : ns.take (start - 1) ++ ns.drop (start - 1) = ns := take_append_drop _ ns
  have hrep : Rep z (ns.take (start - 1) ++ ns.drop (start - 1)) := hns.symm ▸ h
  obtain ⟨p, r, rest, hu, hupd, hcount, hafter⟩ := hrep.search (passes_rank start hN)
  have hr : r = (ns.take (start - 1)).length := hcount.2 (hns.symm ▸ hN)
  have hfuel : (ns.drop (start - 1)).length < z.nodes.next + 1 := by
    have := h.stored.length_le
    rw [length_drop]
    omega
  obtain ⟨z', d', hz', hw', hrep', hd', hm'⟩ := deleteRanks_ok (t := r + 1) stop hrep hupd
    hfuel hd hm
  -- a start behind the last node leaves nothing to delete
  have hcount : ∀ l : List (Cell S E), l = ns.drop (start - 1) →
      l.take (stop + 1 - (r + 1)) = l.take (stop - (start - 1)) ∧
      l.drop (stop + 1 - (r + 1)) = l.drop (stop - (start - 1)) := by
    rintro l rfl
    rw [hr, length_take]
    rcases le_total (start - 1) ns.length with hle | hle
    · rw [min_eq_left hle, show stop + 1 - (start - 1 + 1) = stop - (start - 1) by omega]
      exact ⟨rfl, rfl⟩
    rw [drop_eq_nil_of_le hle]
    simp
  obtain ⟨htake, hdrop⟩ := hcount _ rfl
  rw [htake] at hz' hw' hm'
  rw [hdrop] at hrep'
  rw [zslDeleteRanks, zslDeleteRangeByRank, deleteRange, hu, ok_bind, ok_bind]
  dsimp only
  rw [hafter, ok_bind, ok_bind]
  exact ⟨z', d', hz', hw', hrep', hd', hm'⟩

end

/-! ## Runs -/

section

variable [LinearOrder S] [LinearOrder E]

/-- The ranks of `z` are the positions in `ns`, from 1 on. -/
structure RanksOk (z : Zskiplist S E) (ns : List (Cell S E)) : Prop where
  rank_stored : ∀ pre c post, ns = pre ++ c :: post →
    zslGetRank z c.score c.ele = .ok (pre.length + 1)
  rank_absent : ∀ score ele, (∀ c ∈ ns, c.ele ≠ ele) → zslGetRank z score ele = .ok 0
  node_of_rank : ∀ pre c post, ns = pre ++ c :: post →
    zslGetElementByRank z (pre.length + 1) = .ok (some (.node c.addr))
  no_node : ∀ rank, z.length < rank → zslGetElementByRank z rank = .ok none
  /-- The nodes from `start` to `stop` are deleted, and their elements are deleted from the dict. -/
  delete : ∀ {V : Type} (hash : E → Nat) (d : Dict E V) (m : Finmap fun _ : E => Option V)
    (start stop : Nat), d.Shape hash → d.Represents m →
    ∃ z' d' m', zslDeleteRanks hash z start stop d =
        .ok (z', d', ((ns.drop (start - 1)).take (stop - (start - 1))).length) ∧
      SkiplistOk z' (ns.take (start - 1) ++ (ns.drop (start - 1)).drop (stop - (start - 1))) ∧
      d'.Shape hash ∧ d'.Represents m' ∧ ∀ k, m'.lookup k =
        if k ∈ ((ns.drop (start - 1)).take (stop - (start - 1))).map Cell.ele then none
        else m.lookup k

theorem Rep.ranksOk (h : Rep z ns) (hs : ns.Pairwise Before) (hd : (ns.map Cell.ele).Nodup)
    (hN : ns.length < uintSize) : RanksOk z ns where
  rank_stored _ _ _ hns := zslGetRank_stored h hs hd hN hns
  rank_absent score _ hele := zslGetRank_absent h hs hN hele score
  node_of_rank _ _ _ hns := zslGetElementByRank_stored h hN hns
  no_node rank hr := zslGetElementByRank_beyond h hN (h.length ▸ hr)
  delete hash d m start stop hshape hm := by
    obtain ⟨z', d', hz', -, hrep, hd', hm'⟩ := zslDeleteRanks_ok h hN start stop hshape hm
    have hsub : (ns.take (start - 1) ++ (ns.drop (start - 1)).drop (stop - (start - 1))).Sublist ns := by
      have hsub := sublist_suffix (A := ns.take (start - 1))
        (drop_suffix (stop - (start - 1)) (ns.drop (start - 1)))
      rwa [take_append_drop] at hsub
    exact ⟨z', d', _, hz', hrep.skiplistOk (hs.sublist hsub) (lt_of_le_of_lt hsub.length_le hN),
      hd', hm', lookup_eraseAll _ m⟩

/-- **Ranks are positions** after every run of insertions, deletions and deletions of ranges in which
the list has fewer than `2 ^ 32` nodes. -/
theorem run_ranks {ops : List (Op S E)} (h : Meets Fits (zslCreate S E) ops) :
    ∃ z ns, run (zslCreate S E) ops = .ok z ∧ SkiplistOk z ns ∧ RanksOk z ns := by
  obtain ⟨z, ns, hz, hr, hs, hd, hN⟩ := run_rep rep_zslCreate List.Pairwise.nil nodup_nil
    (Nat.succ_pos _) h
  exact ⟨z, ns, hz, hr.skiplistOk hs hN, hr.ranksOk hs hd hN⟩

end

theorem run_ranks_mixedHeights :
    ∃ z ns, run (zslCreate Nat Nat) mixedHeights = .ok z ∧ SkiplistOk z ns ∧ RanksOk z ns :=
  run_ranks (by decide +kernel)

/-- The `2 ^ 32`-th node is reached in one step whose span is 0, so it has no rank. The rank of an
element is also looked up under a score that it does not have. -/
theorem rank_wraps : (∃ ops z n, Meets OpOk (zslCreate Nat Nat) ops ∧
      run (zslCreate Nat Nat) ops = .ok z ∧ (n, n) ∈ items z ∧ zslGetRank z n n = .ok 0) ∧
    (run (zslCreate Nat Nat) [.insert 1 7 1] >>= fun z => zslGetRank z 2 7) = .ok 1 := by
  refine ⟨?_, by decide +kernel⟩
  obtain ⟨n, hn⟩ : ∃ n, n + 1 = uintSize := ⟨4294967295, rfl⟩
  obtain ⟨z, A, a, hm, hz, hr, hlen, hall⟩ := ascending_tall n
  obtain ⟨hlevel, hlev⟩ := lev_header_tall hr fun c hc => (hall c hc).2.2
  refine ⟨_, z, n, hm, hz, by rw [hr.items_eq]; simp, ?_⟩
  -- there are two levels
  have htwo : z.level = 2 := by
    rcases hr.top with h1 | ⟨c, hc, hce⟩
    · omega
    rcases mem_append.mp hc with hc | hc
    · have := (hall c hc).2.2
      omega
    · rw [← hce, mem_singleton.mp hc]
  obtain ⟨nd, hnd, hele, hscore⟩ := hr.stored.get (c := ⟨a, n, n, 2⟩) (by simp)
  obtain ⟨k, hk⟩ : ∃ k, z.nodes.next = k + 1 := by
    have := hr.stored.lt_next (c := ⟨a, n, n, 2⟩) (by simp)
    exact ⟨z.nodes.next - 1, by simp at this; omega⟩
  have hlast : lev z (.node a) 1 = some ⟨none, 0⟩ := by
    exact hr.levels.at_node (Nat.lt_succ_self 1)
  have hadv : advance z (fun _ s e => decide (s < n) || (decide (s = n) && decide (e ≤ n))) 1
      (z.nodes.next + 1) .header 0 = .ok (.node a, 0) := by
    rw [hlen, hn, Nat.mod_self] at hlev
    rw [advance, readLevel_eq hlev, ok_bind]
    dsimp only
    rw [node, hnd, deref_some, ok_bind, hscore, hele, if_pos (by simp), hk, advance,
      readLevel_eq hlast, ok_bind]
  rw [zslGetRank, htwo, walkLevels, hadv, ok_bind]
  dsimp only
  rw [hasEle, node, hnd, deref_some, ok_bind, hele]
  simp

end UfsRedis.Skiplist
