import Mathlib.Data.List.TakeWhile
import UfsRedis.Ot.Strings
import UfsRedis.Content

/-!
# What the scanners compute

On well-formed strings the scanners decide membership and compute set differences:

* `delElements_eq`, `sdsDel_join`: `sdsDel` is ordered set difference;
* `findstr_join`: `findstr` is membership of the first name;
* `cpltClass_render`: `cpltClass` gives what is left of a class, or `*`;
* `sameClass_render`: `sameClass` is the relation of the partition.

Each returns `.ok`: none of them reads past a terminator on these strings.
-/

namespace UfsRedis

open List

/-! ## `sdsDel` -/

theorem delElements_eq (h : elements.Nodup) :
    delElements elements del = elements.filter (· ∉ del) := by
  induction elements generalizing del with
  | nil => rfl
  | cons e elements ih =>
    obtain ⟨he, h⟩ := nodup_cons.mp h
    by_cases hd : e ∈ del
    · rw [delElements, if_pos hd, ih h, filter_cons_of_neg (by simpa using hd)]
      apply filter_congr
      intro x hx
      have hne : x ≠ e := fun h => he (h ▸ hx)
      simp [mem_erase_of_ne hne]
    · rw [delElements, if_neg hd, ih h, filter_cons_of_pos (by simpa using hd)]

variable {c t : List Sds} {s x v sub p : Sds} {d : Char} {prev : Option Char} {n : Nat}

theorem delLoop_eq (done elements del : List Sds) (hn : elements.length < n) :
    delLoop n (done ++ elements) del done.length = .ok (done ++ delElements elements del) := by
  induction elements generalizing done del n with
  | nil =>
    obtain ⟨n, rfl⟩ := Nat.exists_eq_add_one.mpr hn
    simp [delLoop, delElements]
  | cons e elements ih =>
    obtain ⟨n, rfl⟩ := Nat.exists_eq_add_one.mpr (Nat.zero_lt_of_lt hn)
    have hlen : elements.length < n := by simpa using hn
    rw [delLoop, getElem?_append_right le_rfl, Nat.sub_self, getElem?_cons_zero, delElements]
    dsimp only
    cases hidx : del.idxOf? e with
    | some j =>
      have hdel : del.erase e = del.eraseIdx j := by rw [erase_eq_eraseIdx, hidx]
      rw [if_pos (isSome_idxOf?.mp (by rw [hidx]; rfl)), hdel,
        eraseIdx_append_of_length_le le_rfl, Nat.sub_self, eraseIdx_cons_zero]
      exact ih done _ hlen
    | none =>
      rw [if_neg (idxOf?_eq_none_iff.mp hidx)]
      simpa using ih (done ++ [e]) del hlen

theorem sdsDel_join (hc : c.Nodup) (hcn : ∀ x ∈ c, NameOk x) (ht : ∀ x ∈ t, NameOk x) :
    sdsDel (sdsjoin c ',') (sdsjoin t ',') = sdsjoin (c.filter (· ∉ t)) ',' := by
  rw [sdsDel, split_operand hcn, split_operand ht, delElements_eq hc]

theorem find?_of_forall {p : Sds → Bool} {l : List Sds} (h : ∀ x ∈ l, p x = true) :
    l.find? p = l.head? := by
  cases l with
  | nil => rfl
  | cons x l => rw [find?_cons_of_pos (h x (by simp))]; rfl

theorem firstOfsdsDel_join (hc : c.Nodup) (hcn : ∀ x ∈ c, NameOk x) (ht : ∀ x ∈ t, NameOk x) :
    firstOfsdsDel (sdsjoin c ',') (sdsjoin t ',') = (c.find? (· ∉ t)).getD [] := by
  rw [firstOfsdsDel, split_operand hcn, split_operand ht, delElements_eq hc, find?_of_forall]
  · rw [head?_filter]
  intro x hx
  simpa using (hcn x (mem_of_mem_filter hx)).1

/-- The loop of `sdsDel` ends, and what it leaves in the array are the names of the first list that
are not in the second. `sdsDel` joins them, `firstOfsdsDel` returns the first one. -/
theorem sdsDel_difference (hc : c.Nodup) (hcn : ∀ x ∈ c, x ≠ [] ∧ ',' ∉ x)
    (ht : ∀ x ∈ t, x ≠ [] ∧ ',' ∉ x) :
    delLoop (c.length + 1) (sdssplit (sdsjoin c ',') ',') (sdssplit (sdsjoin t ',') ',') 0 =
      .ok (c.filter (· ∉ t)) ∧
    sdsDel (sdsjoin c ',') (sdsjoin t ',') = sdsjoin (c.filter (· ∉ t)) ',' ∧
    ∀ x r, c.filter (· ∉ t) = x :: r → firstOfsdsDel (sdsjoin c ',') (sdsjoin t ',') = x := by
  have hsplit {l : List Sds} (h : ∀ x ∈ l, x ≠ [] ∧ ',' ∉ x) : sdssplit (sdsjoin l ',') ',' = l :=
    sdssplit_sdsjoin (fun x hx => (h x hx).2) fun x hx => (h x hx).1
  rw [sdsDel, firstOfsdsDel, hsplit hcn, hsplit ht, delElements_eq hc]
  refine ⟨?_, rfl, fun x r hx => ?_⟩
  · rw [← delElements_eq hc]
    exact delLoop_eq [] c t (Nat.lt_succ_self _)
  have hmem : x ∈ c := mem_of_mem_filter (hx ▸ mem_cons_self)
  rw [hx, find?_cons_of_pos (by simpa using (hcn x hmem).1), Option.getD_some]

theorem sdsDel_difference_middle :
    sdsDel ['a', ',', 'b', ',', 'c'] ['b'] = ['a', ',', 'c'] :=
  (sdsDel_difference (c := [['a'], ['b'], ['c']]) (t := [['b']]) (by decide) (by decide)
    (by decide)).2.1

/-! ## `findstr` -/

variable {b r t₀ : Sds} {xs : List Sds} {sep : Char} {type : OtFlag} {cs : Classes}

theorem matchName_spec (fin : Option Char → Bool) (left : Bool) (hs : s ≠ []) :
    (∃ r, b = s ++ r ∧ (left && fin r.head?) = true ∧ matchName fin left b s = .ok none) ∨
    ((∀ r, b = s ++ r → (left && fin r.head?) = false) ∧
      ∃ i, matchName fin left b s = .ok (some i) ∧ b.take i <+: s ∧ i ≤ b.length) := by
  induction s generalizing b with
  | nil => exact absurd rfl hs
  | cons y s ih =>
    obtain _ | ⟨x, b⟩ := b
    · exact .inr ⟨by simp, 0, rfl, by simp, by simp⟩
    by_cases hxy : x = y
    · subst hxy
      by_cases hs' : s = []
      · subst hs'
        by_cases hf : (left && fin b.head?) = true
        · exact .inl ⟨b, rfl, hf, by simp [matchName, hf]⟩
        refine .inr ⟨fun r h => ?_, 1, by simp [matchName, hf], by simp, by simp⟩
        obtain rfl : b = r := by simpa using h
        simpa using hf
      rcases ih (b := b) hs' with ⟨r, hr, hf, hm⟩ | ⟨hn, i, hm, hp, hi⟩
      · exact .inl ⟨r, by rw [hr]; rfl, hf, by simp [matchName, hs', hm]⟩
      refine .inr ⟨fun r h => hn r (List.cons.inj h).2, i + 1, by simp [matchName, hs', hm],
        ?_, by simpa using hi⟩
      rw [take_succ_cons]
      exact prefix_cons_inj x |>.mpr hp
    refine .inr ⟨fun r h => absurd (List.cons.inj h).1 hxy, 0, by simp [matchName, hxy],
      by simp, by simp⟩

/-- The rest of a class after a name: nothing, or a comma and the other names. -/
theorem sdsjoin_cons_eq (x : Sds) (xs : List Sds) (sep : Char) :
    sdsjoin (x :: xs) sep = x ++ if xs = [] then [] else sep :: sdsjoin xs sep := by
  by_cases h : xs = []
  · simp [h]
  · rw [if_neg h, sdsjoin_cons x h]

theorem head?_sdsjoin (h : ∀ x ∈ xs, x ≠ [])
    (hd : (sdsjoin xs sep).head? = some d) : ∃ x ∈ xs, x.head? = some d := by
  obtain _ | ⟨x, xs⟩ := xs
  · simp at hd
  refine ⟨x, by simp, ?_⟩
  rwa [sdsjoin_cons_eq, head?_append_of_ne_nil _ (h x (by simp))] at hd

theorem getLast?_sdsjoin (h : ∀ x ∈ xs, x ≠ [])
    (hd : (sdsjoin xs sep).getLast? = some d) : ∃ x ∈ xs, x.getLast? = some d := by
  induction xs with
  | nil => simp at hd
  | cons x xs ih =>
    by_cases hx : xs = []
    · exact ⟨x, by simp, by simpa [hx] using hd⟩
    have hne : sdsjoin xs sep ≠ [] := sdsjoin_eq_nil hx fun y hy => h y (by simp [hy])
    rw [sdsjoin_cons x hx, getLast?_append_of_ne_nil _ (by simp), getLast?_cons_of_ne_nil hne] at hd
    obtain ⟨y, hy, hyd⟩ := ih (fun y hy => h y (by simp [hy])) hd
    exact ⟨y, by simp [hy], hyd⟩

theorem Classes.render_ends (cs : Classes)
    (hd : cs.render.head? = some d ∨ cs.render.getLast? = some d) : d ≠ ',' ∧ d ≠ '/' := by
  have hne : ∀ u ∈ cs.toList.map (sdsjoin · ','), u ≠ [] := by
    simpa using fun c hc => cs.join_ne_nil hc
  have hname : ∃ c ∈ cs.toList, ∃ x ∈ c, d ∈ x := by
    rcases hd with hd | hd
    · obtain ⟨u, hu, hud⟩ := head?_sdsjoin hne hd
      obtain ⟨c, hc, rfl⟩ := mem_map.mp hu
      obtain ⟨x, hx, hxd⟩ := head?_sdsjoin (fun x hx => (cs.names c hc x hx).1) hud
      exact ⟨c, hc, x, hx, mem_of_mem_head? hxd⟩
    obtain ⟨u, hu, hud⟩ := getLast?_sdsjoin hne hd
    obtain ⟨c, hc, rfl⟩ := mem_map.mp hu
    obtain ⟨x, hx, hxd⟩ := getLast?_sdsjoin (fun x hx => (cs.names c hc x hx).1) hud
    exact ⟨c, hc, x, hx, mem_of_getLast? hxd⟩
  obtain ⟨c, hc, x, hx, hdx⟩ := hname
  obtain ⟨-, hcomma, hslash⟩ := cs.names c hc x hx
  exact ⟨fun h => hcomma (h ▸ hdx), fun h => hslash (h ▸ hdx)⟩

theorem append_inj_of_sep {t : Sds} {p : Char → Prop} (hx : ∀ c ∈ x, ¬ p c)
    (hs : ∀ c ∈ s, ¬ p c) (hr : ∀ c, r.head? = some c → p c) (ht : ∀ c, t.head? = some c → p c)
    (h : x ++ t = s ++ r) : x = s ∧ t = r := by
  induction x generalizing s with
  | nil =>
    cases s with
    | nil => exact ⟨rfl, h⟩
    | cons y s => exact absurd (ht y (by rw [show t = _ from h]; rfl)) (hs y (by simp))
  | cons c x ih =>
    obtain _ | ⟨y, s⟩ := s
    · exact absurd (hr c (by rw [← show _ = r from h]; rfl)) (hx c (by simp))
    rw [cons_append, cons_append, List.cons.injEq] at h
    obtain ⟨rfl, ht'⟩ := ih (fun c hc => hx c (by simp [hc])) (fun c hc => hs c (by simp [hc])) h.2
    exact ⟨by rw [h.1], ht'⟩

theorem dropWhile_append_of_forall {p : Char → Bool} {t : Sds} (h : ∀ c ∈ x, p c = true) :
    (x ++ t).dropWhile p = t.dropWhile p := by
  induction x with
  | nil => rfl
  | cons c x ih => rw [cons_append, dropWhile_cons_of_pos (h c (by simp)),
      ih fun c hc => h c (by simp [hc])]

section

/-! The separators are the characters with `p`; `fin` accepts them and the end. -/

variable {fin : Option Char → Bool} {p : Char → Prop} {x s t : Sds}

theorem matchName_stop (fin : Option Char → Bool) (left : Bool) (hs : s ≠ []) (hsp : ∀ c ∈ s, ¬ p c)
    (ht : ∀ c, t.head? = some c → p c)
    (hno : ∀ r, x ++ t = s ++ r → (left && fin r.head?) = false) :
    ∃ i, matchName fin left (x ++ t) s = .ok (some i) ∧ i ≤ x.length := by
  rcases matchName_spec fin left (b := x ++ t) hs with ⟨r, hr, hf, -⟩ | ⟨-, i, hm, hp, hi⟩
  · rw [hno r hr] at hf
    cases hf
  refine ⟨i, hm, ?_⟩
  -- the equal characters are in `x`: the name `s` has no separator
  by_contra hlt
  have hlt : x.length < i := Nat.lt_of_not_le hlt
  obtain ⟨c, t', ht'⟩ : ∃ c t', t = c :: t' := by
    cases h : t with
    | nil => simp [h] at hi; omega
    | cons c t' => exact ⟨c, t', rfl⟩
  refine hsp c (hp.subset ?_) (ht c (by rw [ht']; rfl))
  rw [take_append, ht', take_of_length_le (Nat.le_of_lt hlt)]
  obtain ⟨k, hk⟩ : ∃ k, i - x.length = k + 1 := ⟨i - x.length - 1, by omega⟩
  simp [hk]

variable (hfin : ∀ o, fin o = true ↔ ∀ c, o = some c → p c)
include hfin

theorem matchName_self (hs : s ≠ []) (ht : ∀ c, t.head? = some c → p c) :
    matchName fin true (s ++ t) s = .ok none := by
  rcases matchName_spec fin true (b := s ++ t) hs with ⟨r, -, -, hm⟩ | ⟨hno, -⟩
  · exact hm
  have := hno t rfl
  rw [Bool.true_and, (hfin _).mpr ht] at this
  cases this

theorem matchName_other (hx : x ≠ []) (hxp : ∀ c ∈ x, ¬ p c) (hs : s ≠ []) (hsp : ∀ c ∈ s, ¬ p c)
    (ht : ∀ c, t.head? = some c → p c) (hne : x ≠ s) :
    ∃ i, matchName fin true (x ++ t) s = .ok (some i) ∧ max i 1 ≤ x.length := by
  obtain ⟨i, hm, hi⟩ := matchName_stop fin true (x := x) hs hsp ht fun r hr => by
    rw [Bool.true_and, ← Bool.not_eq_true, hfin]
    exact fun hr' => hne (append_inj_of_sep hxp hsp hr' ht hr).1
  have := length_pos_of_ne_nil hx
  exact ⟨i, hm, by omega⟩

end

theorem commaEnd_iff (o : Option Char) : commaEnd o = true ↔ ∀ c, o = some c → c = ',' := by
  cases o <;> simp [commaEnd]

theorem classEnd_iff (o : Option Char) :
    classEnd o = true ↔ ∀ c, o = some c → c = ',' ∨ c = '/' := by
  cases o <;> simp [classEnd]

theorem dropWhile_name {q t} {k : Nat} (hk : k ≤ x.length)
    (hx : ∀ c ∈ x, q c = true) (ht : ∀ c, t.head? = some c → q c = false) :
    ((x ++ t).drop k).dropWhile q = t := by
  rw [drop_append_of_le_length hk, dropWhile_append_of_forall fun c hc => hx c (mem_of_mem_drop hc)]
  cases t with
  | nil => rfl
  | cons c t => rw [dropWhile_cons_of_neg]; simp [ht c rfl]

theorem findstrLoop_join (hs : s ≠ [])
    (hsc : ',' ∉ s) (hc : c ≠ []) (hn : ∀ x ∈ c, x ≠ [] ∧ ',' ∉ x) (hlen : c.length ≤ n)
    (hprev : prev = none ∨ prev = some ',') :
    findstrLoop s n prev (sdsjoin c ',') = .ok (decide (s ∈ c)) := by
  induction c generalizing n prev with
  | nil => exact absurd rfl hc
  | cons x xs ih =>
    obtain ⟨n, rfl⟩ : ∃ m, n = m + 1 := ⟨n - 1, by simp at hlen; omega⟩
    have hx := hn x (by simp)
    have hleft : (prev == none || prev == some ',') = true := by
      rcases hprev with rfl | rfl <;> rfl
    -- the text after `x` starts with a comma, if there is any
    set t : Sds := if xs = [] then [] else ',' :: sdsjoin xs ',' with ht
    have hth : ∀ c, t.head? = some c → c = ',' := by
      intro c h
      rw [ht] at h
      split at h
      · simp at h
      · simpa using h.symm
    have hsp : ∀ c ∈ s, ¬ c = ',' := fun c hc h => hsc (h ▸ hc)
    have hxp : ∀ c ∈ x, ¬ c = ',' := fun c hc h => hx.2 (h ▸ hc)
    rw [findstrLoop, hleft, sdsjoin_cons_eq x xs, ← ht]
    by_cases hne : x = s
    · subst hne
      rw [matchName_self commaEnd_iff hs hth]
      simp
    obtain ⟨i, hm, hm1⟩ := matchName_other commaEnd_iff hx.1 hxp hs hsp hth hne
    have hdrop : ((x ++ t).drop (max i 1)).dropWhile (· ≠ ',') = t :=
      dropWhile_name hm1 (fun c hc => by simpa using hxp c hc) fun c hc => by simp [hth c hc]
    have hlt : ¬ (x ++ t).length < max i 1 := by simp only [length_append]; omega
    simp only [hm, ok_bind, hlt, if_false, hdrop]
    by_cases hxs : xs = []
    · simp [ht, hxs, Ne.symm hne]
    have hj : sdsjoin xs ',' ≠ [] := sdsjoin_eq_nil hxs fun y hy => (hn y (by simp [hy])).1
    simp only [ht, hxs, if_false, hj]
    rw [ih hxs (fun y hy => hn y (by simp [hy])) (by simpa using hlen) (.inr rfl)]
    simp [Ne.symm hne]

theorem length_le_length_sdsjoin (h : ∀ x ∈ c, x ≠ []) : c.length ≤ (sdsjoin c sep).length := by
  induction c with
  | nil => simp
  | cons x xs ih =>
    have hx := length_pos_of_ne_nil (h x (by simp))
    have := ih fun y hy => h y (by simp [hy])
    rw [sdsjoin_cons_eq]
    by_cases hxs : xs = []
    · simp [hxs]; omega
    · simp [hxs]; omega

/-- **`findstr` is membership of the first name.** -/
theorem findstr_join (hv : firstName v = .ok s) (hs : s ≠ [])
    (hsc : ',' ∉ s) (hc : c ≠ []) (hn : ∀ x ∈ c, x ≠ [] ∧ ',' ∉ x) :
    findstr (sdsjoin c ',') v = .ok (decide (s ∈ c)) := by
  rw [findstr, hv, ok_bind]
  apply findstrLoop_join hs hsc hc hn _ (.inl rfl)
  exact Nat.le_succ_of_le (length_le_length_sdsjoin fun x hx => (hn x hx).1)

theorem firstName_of_name (h : ',' ∉ s) : firstName s = .ok s := by
  rw [firstName, if_neg h]

/-- `findstr` reads no byte after the terminator, and the first name of `v` is found if it is a name
of the list. -/
theorem findstr_mem_iff (hc : c ≠ []) (hn : ∀ x ∈ c, x ≠ [] ∧ ',' ∉ x)
    (hs : v.takeWhile (· ≠ ',') ≠ []) (hlen : (v.takeWhile (· ≠ ',')).length ≤ 9) :
    ∃ b, findstr (sdsjoin c ',') v = .ok b ∧ (b = true ↔ v.takeWhile (· ≠ ',') ∈ c) := by
  have hfirst : firstName v = .ok (v.takeWhile (· ≠ ',')) := by
    by_cases hv : ',' ∈ v
    · rw [firstName, if_pos hv]
      exact if_pos (Nat.lt_succ_of_le hlen)
    rw [firstName_of_name hv, takeWhile_eq_self_iff.mpr]
    intro d hd
    have hne : d ≠ ',' := fun e => hv (e ▸ hd)
    simpa using hne
  have hcomma : ',' ∉ v.takeWhile (· ≠ ',') := fun h => by simpa using mem_takeWhile_imp h
  exact ⟨_, findstr_join hfirst hs hcomma hc hn, decide_eq_true_iff⟩

theorem findstr_mem_iff_prefixed : ∃ b, findstr ['a', 'b', ',', 'a'] ['a', ',', 'c'] = .ok b ∧
    (b = true ↔ ['a'] ∈ [['a', 'b'], ['a']]) :=
  findstr_mem_iff (c := [['a', 'b'], ['a']]) (v := ['a', ',', 'c']) (by decide) (by decide)
    (by decide) (by decide)

/-- The first name of a list of two or more, if it fits the buffer. -/
theorem firstName_join {t ts} (h : ',' ∉ t) (hts : ts ≠ []) :
    firstName (sdsjoin (t :: ts) ',') = if t.length < 10 then .ok t else .error .bufferOverflow := by
  have ht : (sdsjoin (t :: ts) ',').takeWhile (· ≠ ',') = t := by
    rw [sdsjoin_cons t hts, takeWhile_append_of_pos]
    · simp
    intro c hc
    have : c ≠ ',' := fun e => h (e ▸ hc)
    simpa using this
  rw [firstName, if_pos (by rw [sdsjoin_cons t hts]; simp), ht]

/-! ## Lengths of joined names -/

theorem length_sdsjoin (h : xs ≠ []) (sep : Char) :
    (sdsjoin xs sep).length + 1 = (xs.map (·.length + 1)).sum := by
  induction xs with
  | nil => exact absurd rfl h
  | cons x xs ih =>
    rw [sdsjoin_cons_eq]
    by_cases hx : xs = []
    · simp [hx]
    have := ih hx
    simp only [if_neg hx, length_append, length_cons, map_cons, sum_cons]
    omega

theorem count_sdsjoin (h : xs ≠ []) (hn : ∀ x ∈ xs, sep ∉ x) :
    (sdsjoin xs sep).count sep + 1 = xs.length := by
  induction xs with
  | nil => exact absurd rfl h
  | cons x xs ih =>
    have hx := count_eq_zero_of_not_mem (hn x (by simp))
    rw [sdsjoin_cons_eq]
    by_cases hxs : xs = []
    · simp [hxs, hx]
    have := ih hxs fun y hy => hn y (by simp [hy])
    simp [hxs, hx]; omega

section

variable (h : xs ≠ []) (hn : ∀ x ∈ xs, x ≠ [] ∧ sep ∉ x)
include h hn

theorem sdsjoin_eq_append : ∃ y z, sdsjoin xs sep = y ++ [z] ∧ z ≠ sep := by
  induction xs with
  | nil => exact absurd rfl h
  | cons x xs ih =>
    by_cases hxs : xs = []
    · obtain ⟨hx, hsep⟩ := hn x (by simp)
      refine ⟨x.dropLast, x.getLast hx, by simp [hxs, dropLast_append_getLast], ?_⟩
      exact fun e => hsep (e ▸ getLast_mem hx)
    obtain ⟨y, z, hj, hz⟩ := ih hxs fun w hw => hn w (by simp [hw])
    exact ⟨x ++ sep :: y, z, by rw [sdsjoin_cons x hxs, hj]; simp, hz⟩

theorem count_dropLast_sdsjoin : (sdsjoin xs sep).dropLast.count sep + 1 = xs.length := by
  obtain ⟨y, z, hj, hz⟩ := sdsjoin_eq_append h hn
  rw [← count_sdsjoin h fun x hx => (hn x hx).2, hj]
  simp [hz]

end

theorem length_le_of_mem_join (h : x ∈ xs) (sep : Char) : x.length ≤ (sdsjoin xs sep).length := by
  have hsum := length_sdsjoin (ne_nil_of_mem h) sep
  obtain ⟨s, t, rfl⟩ := append_of_mem h
  simp only [map_append, map_cons, sum_append, sum_cons] at hsum
  omega

theorem perm_append_filter (hc : c.Nodup) (ht : t.Nodup) (hsub : ∀ x ∈ t, x ∈ c) :
    c.Perm (t ++ c.filter (· ∉ t)) := by
  have h1 : (c.filter (· ∈ t)).Perm t := by
    refine (perm_ext_iff_of_nodup (hc.filter _) ht).mpr fun x => ?_
    simpa using fun hx => hsub x hx
  refine (filter_append_perm (· ∈ t) c).symm.trans ?_
  have h2 : c.filter (fun x => !decide (x ∈ t)) = c.filter (· ∉ t) := by
    apply filter_congr; simp
  rw [h2]
  exact h1.append_right _

/-- The test of `cpltClass` on the class that contains `t`: it passes, and the lengths tell
whether `t` is the whole class. -/
theorem cplt_test (hc : c.Nodup) (ht : t.Nodup) (hsub : ∀ x ∈ t, x ∈ c)
    (hne : t ≠ []) (hn : ∀ x ∈ c, NameOk x) :
    (((sdsjoin t ',').count ',' < (sdsjoin c ',').dropLast.count ',' ∧
        (sdsjoin t ',').length < (sdsjoin c ',').length) ∨
      ((sdsjoin t ',').count ',' = (sdsjoin c ',').dropLast.count ',' ∧
        (sdsjoin c ',').length = (sdsjoin t ',').length)) ∧
    ((sdsjoin c ',').length = (sdsjoin t ',').length ↔ ∀ x ∈ c, x ∈ t) := by
  obtain ⟨x, hx⟩ := exists_mem_of_ne_nil t hne
  have hcne : c ≠ [] := ne_nil_of_mem (hsub x hx)
  have hp := perm_append_filter hc ht hsub
  have hlen := hp.length_eq
  have hsum := (hp.map (·.length + 1)).sum_nat
  rw [length_append] at hlen
  rw [map_append, sum_append] at hsum
  have h1 := length_sdsjoin hcne ','
  have h2 := length_sdsjoin hne ','
  have h3 := count_dropLast_sdsjoin hcne fun x hx => (hn x hx).comma
  have h4 := count_sdsjoin hne fun x hx => (hn x (hsub x hx)).2.1
  have hnil : c.filter (· ∉ t) = [] ↔ ∀ x ∈ c, x ∈ t := by simp
  rcases h : c.filter (· ∉ t) with _ | ⟨y, ys⟩
  · rw [h] at hlen hsum
    simp only [length_nil, map_nil, sum_nil, Nat.add_zero] at hlen hsum
    exact ⟨.inr ⟨by omega, by omega⟩, iff_of_true (by omega) (hnil.mp h)⟩
  rw [h] at hlen hsum
  simp only [length_cons, map_cons, sum_cons] at hlen hsum
  refine ⟨.inl ⟨by omega, by omega⟩, iff_of_false (by omega) fun h' => ?_⟩
  rw [hnil.mpr h'] at h
  exact cons_ne_nil _ _ h.symm

/-! ## `cpltClass` -/

theorem cpltMatch_hit (hs : sub ≠ []) (hr : classEnd r.head? = true) :
    cpltMatch true (sub ++ r) sub = .ok true := by
  induction sub with
  | nil => exact absurd rfl hs
  | cons y sub ih =>
    by_cases h : sub = []
    · simp [cpltMatch, h, hr]
    · simp [cpltMatch, h, ih h]

theorem cpltMatch_miss (hne : b ≠ sub)
    (h : left = true → ∀ r, b = sub ++ r → classEnd r.head? = false) :
    cpltMatch left b sub = .ok false := by
  induction sub generalizing b with
  | nil =>
    cases b with
    | nil => exact absurd rfl hne
    | cons x b => rfl
  | cons y sub ih =>
    obtain _ | ⟨x, b⟩ := b
    · rfl
    by_cases hxy : x = y
    · subst hxy
      have hm : cpltMatch left b sub = .ok false := by
        refine ih (fun e => hne (by rw [e])) fun hl r hr => h hl r (by rw [hr]; rfl)
      by_cases hs : sub = [] ∧ (left && classEnd b.head?) = true
      · obtain ⟨rfl, hb⟩ := hs
        simp only [Bool.and_eq_true] at hb
        have := h hb.1 b rfl
        rw [hb.2] at this
        exact absurd this (by decide)
      · rw [cpltMatch, if_pos rfl, if_neg hs, hm]
    · simp [cpltMatch, hxy]

theorem cpltFind_mono
    (h : cpltFind sub (n + m) prev b = .ok false) : cpltFind sub n prev b = .ok false := by
  induction n generalizing prev b with
  | zero => rfl
  | succ n ih =>
    rw [Nat.add_right_comm, cpltFind] at h
    rw [cpltFind]
    obtain ⟨r, hr, h⟩ := bind_eq_ok.mp h
    rw [hr]
    cases r with
    | true => exact h
    | false => exact ih h

section

variable {sub x : Sds} {d : Char} (hsub : NameOk sub)
include hsub

variable {t y : Sds} {m n : Nat} {prev : Option Char} {c : List Sds}

theorem ne_of_sep (hd : d = ',' ∨ d = '/') : y ++ d :: t ≠ sub := by
  rintro rfl
  rcases hd with rfl | rfl
  · exact hsub.2.1 (by simp)
  · exact hsub.2.2 (by simp)

theorem cpltFind_inside {c : Char} (hd : d = ',' ∨ d = '/') (hc : c ≠ ',') (hy : ',' ∉ y) :
    cpltFind sub (y.length + 1 + m) (some c) (y ++ d :: t) = cpltFind sub m (some d) t := by
  induction y generalizing c with
  | nil =>
    have hm : cpltMatch (some c == none || some c == some ',') (d :: t) sub = .ok false :=
      cpltMatch_miss (ne_of_sep hsub (y := []) hd) (by simp [hc])
    simp only [length_nil, Nat.zero_add, Nat.add_comm 1 m, nil_append, cpltFind, hm]
    rfl
  | cons z y ih =>
    have hm : cpltMatch (some c == none || some c == some ',') (z :: y ++ d :: t) sub =
        .ok false := cpltMatch_miss (ne_of_sep hsub hd) (by simp [hc])
    have hz : z ≠ ',' := fun h => hy (by simp [h])
    rw [length_cons, show y.length + 1 + 1 + m = y.length + 1 + m + 1 by omega, cpltFind, hm]
    exact ih hz fun h => hy (by simp [h])

theorem cpltFind_other (hd : d = ',' ∨ d = '/') (hx : NameOk x) (hne : x ≠ sub) :
    cpltFind sub (x.length + 1 + m) prev (x ++ d :: t) = cpltFind sub m (some d) t := by
  obtain ⟨hx0, hx1, hx2⟩ := hx
  have hm : ∀ left, cpltMatch left (x ++ d :: t) sub = .ok false := by
    intro left
    refine cpltMatch_miss (ne_of_sep hsub hd) fun _ r hr => ?_
    by_contra hf
    have hf : classEnd r.head? = true := by simpa using hf
    refine hne (append_inj_of_sep (p := fun c => c = ',' ∨ c = '/') ?_ ?_ ?_ ?_ hr).1
    · exact fun c hc h => h.elim (fun h => hx1 (h ▸ hc)) fun h => hx2 (h ▸ hc)
    · exact fun c hc h => h.elim (fun h => hsub.2.1 (h ▸ hc)) fun h => hsub.2.2 (h ▸ hc)
    · intro c hc; simpa [hc, classEnd] using hf
    · simpa using hd
  obtain ⟨c, y, rfl⟩ := exists_cons_of_ne_nil hx0
  rw [length_cons, show y.length + 1 + 1 + m = y.length + 1 + m + 1 by omega, cpltFind, hm]
  exact cpltFind_inside hsub hd (fun h => hx1 (by simp [h])) fun h => hx1 (by simp [h])

theorem cpltFind_mem (hn : ∀ x ∈ c, NameOk x) (ht : t.head? = none ∨ t.head? = some '/')
    (hprev : prev = none ∨ prev = some ',') (h : sub ∈ c)
    (hlen : (sdsjoin c ',').length + 1 ≤ n + sub.length) :
    cpltFind sub n prev (sdsjoin c ',' ++ t) = .ok true := by
  induction c generalizing n prev with
  | nil => simp at h
  | cons x xs ih =>
    have hleft : (prev == none || prev == some ',') = true := by
      rcases hprev with rfl | rfl <;> rfl
    have hpos := length_le_of_mem_join h ','
    by_cases hx : x = sub
    · subst hx
      obtain ⟨n, rfl⟩ : ∃ m, n = m + 1 := ⟨n - 1, by omega⟩
      rw [cpltFind, hleft, sdsjoin_cons_eq, append_assoc, cpltMatch_hit hsub.1]
      · rfl
      by_cases hxs : xs = []
      · rcases ht with ht | ht <;> simp [hxs, ht, classEnd]
      · simp [hxs, classEnd]
    have hmem : sub ∈ xs := by simpa [Ne.symm hx] using h
    have hxs := ne_nil_of_mem hmem
    have hle := length_le_of_mem_join hmem ','
    rw [sdsjoin_cons x hxs] at hlen ⊢
    simp only [length_append, length_cons] at hlen
    obtain ⟨m, rfl⟩ : ∃ m, n = x.length + 1 + m := ⟨n - (x.length + 1), by omega⟩
    rw [append_assoc, cons_append, cpltFind_other hsub (.inl rfl) (hn x (by simp)) hx]
    exact ih (fun y hy => hn y (by simp [hy])) (.inr rfl) hmem (by omega)

theorem cpltFind_not_mem (hc : c ≠ [])
    (hn : ∀ x ∈ c, NameOk x) (h : sub ∉ c) (hlen : n ≤ (sdsjoin c ',').length + 1) :
    cpltFind sub n prev (sdsjoin c ',' ++ '/' :: t) = .ok false := by
  obtain ⟨k, hk⟩ := Nat.exists_eq_add_of_le hlen
  refine cpltFind_mono (m := k) ?_
  rw [← hk]
  clear hk hlen
  induction c generalizing prev with
  | nil => exact absurd rfl hc
  | cons x xs ih =>
    have hx : x ≠ sub := fun e => h (by simp [e])
    by_cases hxs : xs = []
    · subst hxs
      rw [sdsjoin_singleton]
      exact cpltFind_other hsub (m := 0) (.inr rfl) (hn x (by simp)) hx
    rw [sdsjoin_cons x hxs, append_assoc, cons_append]
    rw [show (x ++ ',' :: sdsjoin xs ',').length + 1 =
      x.length + 1 + ((sdsjoin xs ',').length + 1) by simp; omega,
      cpltFind_other hsub (.inl rfl) (hn x (by simp)) hx]
    exact ih hxs (fun y hy => hn y (by simp [hy])) fun e => h (by simp [e])

end

/-- What `cpltClass` gives for the names `t` of the class `c`. -/
def cpltResult (c t : List Sds) : OtFlag → Sds
  | .split => if ∀ x ∈ c, x ∈ t then star else sdsjoin (c.filter (· ∉ t)) ','
  | .union => if ∀ x ∈ c, x ∈ t then star else (c.find? (· ∉ t)).getD []

theorem cpltLoop_class (hu : u ≠ [])
    (hslash : '/' ∉ u) (hv : v.head? = none ∨ v.head? = some '/') (hp : p = [] ∨ p = ['/']) :
    cpltLoop s sub type (n + 1) (p ++ (u ++ v)) =
      if (s.count ',' < u.dropLast.count ',' ∧ s.length < u.length) ∨
          (s.count ',' = u.dropLast.count ',' ∧ u.length = s.length) then do
        if ← cpltFind sub (u.length + 1 - sub.length) none (u ++ v) then
          if u.length = s.length then .ok star
          else
            match type with
            | .split => .ok (sdsDel u s)
            | .union => .ok (firstOfsdsDel u s)
        else cpltLoop s sub type n v
      else cpltLoop s sub type n v := by
  obtain ⟨x, y, rfl⟩ := exists_cons_of_ne_nil hu
  have hx : x ≠ '/' := fun h => hslash (by simp [h])
  have htake : (y ++ v).takeWhile (· ≠ '/') = y := by
    rw [takeWhile_append_of_pos]
    · rcases v with _ | ⟨c, v⟩
      · simp
      have hc : c = '/' := by simpa using hv
      simp [hc]
    intro c hc
    have : c ≠ '/' := fun h => hslash (mem_cons_of_mem _ (h ▸ hc))
    simpa using this
  have hdrop : (x :: (y ++ v)).drop (x :: y).length = v := @drop_left _ (x :: y) v
  rcases hp with rfl | rfl
  · cases type <;> simp only [nil_append, cons_append, cpltLoop, hx, if_false, htake, hdrop]
  · cases type <;> simp only [nil_append, cons_append, cpltLoop, if_true, htake, hdrop]

theorem render_cons (c : List Sds) (cs : List (List Sds)) :
    render (c :: cs) = sdsjoin c ',' ++ if cs = [] then [] else '/' :: render cs := by
  rw [render, map_cons, sdsjoin_cons_eq]
  simp [render]

theorem cpltLoop_render {cs} (hne : ∀ d ∈ cs, d ≠ []) (hn : ∀ d ∈ cs, ∀ x ∈ d, NameOk x)
    (hnd : cs.flatten.Nodup) (hc : c ∈ cs) (ht : (t₀ :: t).Nodup) (hsub : ∀ x ∈ t₀ :: t, x ∈ c)
    (hp : p = [] ∨ p = ['/']) (hlen : cs.length ≤ n) :
    cpltLoop (sdsjoin (t₀ :: t) ',') t₀ type n (p ++ render cs) =
      .ok (cpltResult c (t₀ :: t) type) := by
  have ht0 : NameOk t₀ := hn c hc t₀ (hsub t₀ (by simp))
  induction cs generalizing n p with
  | nil => simp at hc
  | cons d ds ih =>
    obtain ⟨n, rfl⟩ : ∃ m, n = m + 1 := ⟨n - 1, by simp at hlen; omega⟩
    have hdn := hn d (by simp)
    have hu : sdsjoin d ',' ≠ [] := sdsjoin_eq_nil (hne d (by simp)) fun x hx => (hdn x hx).1
    have hslash : '/' ∉ sdsjoin d ',' := by
      intro h
      rcases mem_sdsjoin h with h | ⟨x, hx, h⟩
      · exact absurd h (by decide)
      · exact (hdn x hx).2.2 h
    have hv : (if ds = [] then [] else '/' :: render ds).head? = none ∨
        (if ds = [] then [] else '/' :: render ds).head? = some '/' := by
      by_cases h : ds = [] <;> simp [h]
    rw [render_cons, cpltLoop_class hu hslash hv hp]
    rw [flatten_cons, nodup_append] at hnd
    obtain ⟨hdnd, hdsnd, hdisj⟩ := hnd
    by_cases hcd : c = d
    · subst hcd
      obtain ⟨htest, hall⟩ := cplt_test hdnd ht hsub (by simp) hdn
      have htn : ∀ x ∈ t₀ :: t, NameOk x := fun x hx => hdn x (hsub x hx)
      rw [if_pos htest, cpltFind_mem ht0 hdn hv (.inl rfl) (hsub t₀ (by simp)) (by omega), ok_bind,
        if_pos rfl]
      by_cases h : ∀ x ∈ c, x ∈ t₀ :: t
      · rw [if_pos (hall.mpr h)]
        cases type <;> simp only [cpltResult, if_pos h]
      rw [if_neg (mt hall.mp h)]
      cases type
      · simp only [cpltResult, if_neg h, sdsDel_join hdnd hdn htn]
      · simp only [cpltResult, if_neg h, firstOfsdsDel_join hdnd hdn htn]
    have hcds : c ∈ ds := by simpa [hcd] using hc
    have hds : ds ≠ [] := ne_nil_of_mem hcds
    -- `t₀` is in the later class `c`, so not in `d`
    have hnot : t₀ ∉ d := fun h =>
      hdisj t₀ h t₀ (mem_flatten.mpr ⟨c, hcds, hsub t₀ (by simp)⟩) rfl
    have hrec := ih (p := ['/']) (n := n) (fun d hd => hne d (by simp [hd]))
      (fun d hd => hn d (by simp [hd])) hdsnd hcds (.inr rfl) (by simpa using hlen)
    simp only [hds, if_false]
    rw [cpltFind_not_mem ht0 (hne d (by simp)) hdn hnot (by omega)]
    simpa using hrec

/-- `cpltClass` on a content string, for names `t` of one of its classes. A list of two or more
names needs a first name that fits the buffer. -/
theorem cpltClass_render (type : OtFlag)
    (hc : c ∈ cs.toList) (ht : (t₀ :: t).Nodup) (hsub : ∀ x ∈ t₀ :: t, x ∈ c)
    (hfit : t = [] ∨ t₀.length < 10) : cpltClass cs.render (some (sdsjoin (t₀ :: t) ',')) type =
      .ok (cpltResult c (t₀ :: t) type) := by
  have ht0 : ',' ∉ t₀ := (cs.names c hc t₀ (hsub t₀ (by simp))).2.1
  have hfirst : firstName (sdsjoin (t₀ :: t) ',') = .ok t₀ := by
    by_cases h : t = []
    · rw [h, sdsjoin_singleton, firstName_of_name ht0]
    · rw [firstName_join ht0 h, if_pos (hfit.resolve_left h)]
  have hlen : cs.toList.length ≤ cs.render.length + 1 := by
    have : (cs.toList.map (sdsjoin · ',')).length ≤ cs.render.length :=
      length_le_length_sdsjoin (by simpa using fun d hd => cs.join_ne_nil hd)
    rw [length_map] at this
    omega
  simp only [cpltClass, hfirst, ok_bind]
  exact cpltLoop_render (p := []) cs.ne cs.names cs.nodup hc ht hsub (.inl rfl) hlen

/-- **`cpltClass` computes the remainder of a class.** For names `t₀ :: t` of the class `c` of a
content string it returns, and gives `*` if they are the whole class, and else the other members in
their order (`OT_SPLIT`) or the first of them (`OT_UNION`). -/
theorem cpltClass_remainder {buf : Sds} {c t : List Sds} {t₀ : Sds} (hbuf : WellFormed buf)
    (hc : c ∈ classesOf buf) (ht : (t₀ :: t).Nodup) (hsub : ∀ x ∈ t₀ :: t, x ∈ c)
    (hfit : t₀.length ≤ 9) : ((∀ x ∈ c, x ∈ t₀ :: t) → ∀ type,
      cpltClass buf (some (sdsjoin (t₀ :: t) ',')) type = .ok star) ∧ ((∃ x ∈ c, x ∉ t₀ :: t) →
      cpltClass buf (some (sdsjoin (t₀ :: t) ',')) .split =
        .ok (sdsjoin (c.filter (· ∉ t₀ :: t)) ',') ∧
      ∃ x, (c.filter (· ∉ t₀ :: t)).head? = some x ∧
        cpltClass buf (some (sdsjoin (t₀ :: t) ',')) .union = .ok x) := by
  obtain ⟨cs, rfl, hcs⟩ := hbuf.exists_classes
  have hrun : ∀ type, cpltClass cs.render (some (sdsjoin (t₀ :: t) ',')) type =
      .ok (cpltResult c (t₀ :: t) type) := fun type =>
    cpltClass_render type (hcs ▸ hc) ht hsub (.inr (by omega))
  constructor
  · intro hall type
    rw [hrun]
    cases type <;> rw [cpltResult, if_pos hall]
  rintro ⟨x, hx, hxt⟩
  have hall : ¬ ∀ x ∈ c, x ∈ t₀ :: t := fun h => hxt (h x hx)
  refine ⟨by rw [hrun, cpltResult, if_neg hall], ?_⟩
  rcases hfirst : c.find? (· ∉ t₀ :: t) with _ | y
  · have := find?_eq_none.mp hfirst x hx
    simp [hxt] at this
  refine ⟨y, by rw [head?_filter, hfirst], ?_⟩
  rw [hrun, cpltResult, if_neg hall, hfirst]
  rfl

/-- The names `a` and `aa` of the class `aa,b,a`, where one name begins another. -/
theorem cpltClass_remainder_overlap :
    cpltClass ['b', 'a', '/', 'a', 'a', ',', 'b', ',', 'a'] (some ['a', ',', 'a', 'a']) .split =
      .ok ['b'] :=
  ((@cpltClass_remainder ['b', 'a', '/', 'a', 'a', ',', 'b', ',', 'a'] [['a', 'a'], ['b'], ['a']]
    [['a', 'a']] ['a'] (by decide +kernel) (by decide +kernel) (by decide) (by decide)
    (by decide)).2 (by decide)).1

/-! ## The length of a content -/

theorem Classes.length_render (cs : Classes) (h : cs.toList ≠ []) :
    cs.render.length + 1 = (cs.elements.map (·.length + 1)).sum := by
  have h1 : ∀ L : List (List Sds), (∀ c ∈ L, c ≠ []) →
      ((L.map (sdsjoin · ',')).map (·.length + 1)).sum = (L.flatten.map (·.length + 1)).sum := by
    intro L hL
    induction L with
    | nil => rfl
    | cons c L ih =>
      rw [map_cons, map_cons, sum_cons, ih fun d hd => hL d (by simp [hd]),
        flatten_cons, map_append, sum_append, length_sdsjoin (hL c (by simp))]
  have := length_sdsjoin (show cs.toList.map (sdsjoin · ',') ≠ [] by simpa using h) '/'
  rw [h1 _ cs.ne] at this
  exact this

theorem Classes.length_render_eq {cs' : Classes} (h : cs'.elements.Perm cs.elements) :
    cs'.render.length = cs.render.length := by
  have hnil : ∀ cs : Classes, cs.toList = [] ↔ cs.elements = [] := by
    intro cs
    constructor
    · intro h; simp [elements, h]
    intro h
    by_contra hne
    obtain ⟨c, hc⟩ := exists_mem_of_ne_nil _ hne
    exact cs.ne c hc (flatten_eq_nil_iff.mp h c hc)
  by_cases hc : cs.toList = []
  · have hc' : cs'.toList = [] := (hnil cs').mpr (((hnil cs).mp hc ▸ h).eq_nil)
    simp [render, hc, hc']
  have hc' : cs'.toList ≠ [] := fun h' => hc ((hnil cs).mpr (((hnil cs').mp h' ▸ h).nil_eq.symm))
  have h1 := cs.length_render hc
  have h2 := cs'.length_render hc'
  have h3 := (h.map (·.length + 1)).sum_nat
  omega

theorem Classes.length_elements_le (cs : Classes) : cs.elements.length ≤ cs.render.length + 1 := by
  by_cases h : cs.toList = []
  · simp [elements, h]
  have hle : ∀ l : List Sds, l.length ≤ (l.map (·.length + 1)).sum := by
    intro l
    induction l with
    | nil => rfl
    | cons x l ih =>
      rw [length_cons, map_cons, sum_cons]
      omega
  rw [cs.length_render h]
  exact hle cs.elements

/-! ## `sameClass` -/

variable {s v x t : Sds} {c : List Sds} {L : List (List Sds)} {prev : Option Char} {n : Nat}

theorem NameOk.not_sep (hx : NameOk x) : ∀ d ∈ x, ¬ (d = ',' ∨ d = '/') := by
  rintro d hd (rfl | rfl)
  · exact hx.2.1 hd
  · exact hx.2.2 hd

theorem head_class (c : List Sds) (ht : ∀ d, t.head? = some d → d = '/') :
    ∀ d, ((if c = [] then [] else ',' :: sdsjoin c ',') ++ t).head? = some d →
      d = ',' ∨ d = '/' := by
  intro d hd
  by_cases hc : c = []
  · rw [if_pos hc, nil_append] at hd
    exact .inr (ht d hd)
  rw [if_neg hc] at hd
  exact .inl (by simpa using hd.symm)

theorem sameClassStart_render (hs : NameOk s) (start : Sds) (hc : c ≠ []) (hcn : ∀ x ∈ c, NameOk x)
    (hL : ∀ d ∈ L, d ≠ [] ∧ ∀ x ∈ d, NameOk x) (hmem : s ∈ c ∨ ∃ d ∈ L, s ∈ d)
    (hprev : prev = none ∨ prev = some ',' ∨ prev = some '/')
    (hlen : c.length + L.flatten.length ≤ n) : sameClassStart s n prev start (render (c :: L)) =
      .ok (if s ∈ c then start else render (L.dropWhile (s ∉ ·))) := by
  induction n generalizing c L prev start with
  | zero =>
    have := length_pos_of_ne_nil hc
    omega
  | succ n ih =>
    obtain ⟨x, xs, rfl⟩ := exists_cons_of_ne_nil hc
    have hx := hcn x (by simp)
    have hleft : (prev == none || prev == some ',' || prev == some '/') = true := by
      rcases hprev with rfl | rfl | rfl <;> rfl
    -- the text after `x` starts with a separator, if there is any
    set tl : Sds := if L = [] then [] else '/' :: render L with htl
    have htlh : ∀ d, tl.head? = some d → d = '/' := by
      intro d h
      rw [htl] at h
      split at h
      · simp at h
      · simpa using h.symm
    set t : Sds := (if xs = [] then [] else ',' :: sdsjoin xs ',') ++ tl with ht
    have hth := head_class xs htlh
    rw [← ht] at hth
    have hrender : render ((x :: xs) :: L) = x ++ t := by
      rw [render_cons, sdsjoin_cons_eq, append_assoc]
    rw [sameClassStart, hleft, hrender]
    by_cases hne : x = s
    · subst hne
      rw [matchName_self classEnd_iff hs.1 hth]
      simp
    obtain ⟨i, hm, hm1⟩ := matchName_other classEnd_iff hx.1 hx.not_sep hs.1 hs.not_sep hth hne
    have hdrop : ((x ++ t).drop (max i 1)).dropWhile (fun d => d ≠ ',' ∧ d ≠ '/') = t := by
      refine dropWhile_name hm1 (fun d hd => ?_) fun d hd => ?_
      · simpa using not_or.mp (hx.not_sep d hd)
      · rcases hth d hd with rfl | rfl <;> simp
    have hlt : ¬ (x ++ t).length < max i 1 := by simp only [length_append]; omega
    simp only [hm, ok_bind, hlt, if_false, hdrop]
    by_cases hxs : xs = []
    · -- the last name of its class
      subst hxs
      have hmem' : ∃ d ∈ L, s ∈ d := hmem.resolve_left (by simpa using Ne.symm hne)
      obtain _ | ⟨d, L⟩ := L
      · simp at hmem'
      have hd := hL d (by simp)
      have hrne : render (d :: L) ≠ [] := by
        rw [render_cons]
        have hj : sdsjoin d ',' ≠ [] := sdsjoin_eq_nil hd.1 fun y hy => (hd.2 y hy).1
        simp [hj]
      have hrec := ih (L := L) (render (d :: L)) hd.1 hd.2 (fun e he => hL e (by simp [he]))
        (by simpa using hmem') (.inr (.inr rfl)) (by
          simp only [flatten_cons, length_append, length_singleton] at hlen
          omega)
      simp only [ht, htl, if_true, nil_append, if_false, reduceCtorEq, hrne, hrec]
      by_cases hsd : s ∈ d <;> simp [hsd, Ne.symm hne]
    have hrec := ih (c := xs) (L := L) start hxs (fun y hy => hcn y (by simp [hy])) hL
      (hmem.imp_left fun h => by simpa [Ne.symm hne] using h) (.inr (.inl rfl))
      (by rw [length_cons] at hlen; omega)
    have hrne : sdsjoin xs ',' ++ tl ≠ [] := by
      have hj : sdsjoin xs ',' ≠ [] := sdsjoin_eq_nil hxs fun y hy => (hcn y (by simp [hy])).1
      simp [hj]
    rw [render_cons, ← htl] at hrec
    simp only [ht, hxs, if_false, cons_append, hrne, Char.reduceEq, hrec]
    simp [Ne.symm hne]

theorem sameClassFind_skip (hx : x ≠ []) (hxp : ∀ d ∈ x, ¬ (d = ',' ∨ d = '/'))
    (hm : matchName classEnd (prev == none || prev == some ',') (x ++ t) v = .ok (some i))
    (hi : i ≤ x.length) : ∃ k b, 1 ≤ k ∧ b ≠ ',' ∧
      sameClassFind v (n + 1) prev (x ++ t) = sameClassFind v n (some b) (x.drop k ++ t) := by
  obtain ⟨d, y, rfl⟩ := exists_cons_of_ne_nil hx
  have hmax : max i 1 ≤ (d :: y).length := by
    rw [length_cons] at hi ⊢
    omega
  have hlt : max i 1 - 1 < (d :: y).length := by omega
  have hstart : ¬ (((d :: y) ++ t).head? = none ∨ ((d :: y) ++ t).head? = some '/') := by
    simp only [cons_append, head?_cons, Option.some.injEq, reduceCtorEq, false_or]
    exact fun h => hxp d (by simp) (.inr h)
  -- the last character that is skipped is in the name
  refine ⟨max i 1, (d :: y)[max i 1 - 1], by omega, fun h => hxp _ (getElem_mem hlt) (.inl h), ?_⟩
  rw [sameClassFind, if_neg hstart, hm]
  simp only [ok_bind]
  rw [drop_append_of_le_length hmax, head?_drop, getElem?_append_left hlt, getElem?_eq_getElem hlt]

theorem sameClassFind_inside (hv : NameOk v) (hy : ∀ d ∈ y, ¬ (d = ',' ∨ d = '/'))
    (ht : ∀ d, t.head? = some d → d = ',' ∨ d = '/') (ha : a ≠ ',')
    (hlen : y.length ≤ n) : ∃ m b, n ≤ m + y.length ∧ b ≠ ',' ∧
      sameClassFind v n (some a) (y ++ t) = sameClassFind v m (some b) t := by
  induction n generalizing y a with
  | zero =>
    obtain rfl : y = [] := eq_nil_of_length_eq_zero (by omega)
    exact ⟨0, a, by simp, ha, rfl⟩
  | succ n ih =>
    by_cases hnil : y = []
    · subst hnil
      exact ⟨n + 1, a, by simp, ha, rfl⟩
    have hleft : (some a == none || some a == some ',') = false := by simp [ha]
    obtain ⟨i, hm, hi⟩ := matchName_stop classEnd false (x := y) hv.1
      hv.not_sep ht fun _ _ => rfl
    rw [← hleft] at hm
    obtain ⟨k, b, hk, hb, hstep⟩ := sameClassFind_skip (n := n) hnil hy hm hi
    have hdrop : (y.drop k).length ≤ n := by
      rw [length_drop]
      omega
    obtain ⟨m, b', hle, hb', hrec⟩ := ih (fun e he => hy e (mem_of_mem_drop he)) hb hdrop
    have hpos := length_pos_of_ne_nil hnil
    refine ⟨m, b', ?_, hb', hstep.trans hrec⟩
    rw [length_drop] at hle
    omega

theorem sameClassFind_join (hv : NameOk v) (hc : c ≠ []) (hcn : ∀ x ∈ c, NameOk x)
    (ht : ∀ d, t.head? = some d → d = '/') (hprev : prev = none ∨ prev = some ',')
    (hlen : (sdsjoin c ',').length < n) :
    sameClassFind v n prev (sdsjoin c ',' ++ t) = .ok (decide (v ∈ c)) := by
  induction c generalizing n prev with
  | nil => exact absurd rfl hc
  | cons x xs ih =>
    obtain ⟨n, rfl⟩ : ∃ m, n = m + 1 := ⟨n - 1, by omega⟩
    have hx := hcn x (by simp)
    have hleft : (prev == none || prev == some ',') = true := by
      rcases hprev with rfl | rfl <;> rfl
    have huh := head_class xs ht
    rw [sdsjoin_cons_eq, length_append] at hlen
    rw [sdsjoin_cons_eq, append_assoc]
    by_cases hne : x = v
    · subst hne
      have hstart : ¬ ((x ++ ((if xs = [] then [] else ',' :: sdsjoin xs ',') ++ t)).head? = none ∨
          (x ++ ((if xs = [] then [] else ',' :: sdsjoin xs ',') ++ t)).head? = some '/') := by
        obtain ⟨d, y, rfl⟩ := exists_cons_of_ne_nil hx.1
        simp only [cons_append, head?_cons, Option.some.injEq, reduceCtorEq, false_or]
        exact fun h => hx.not_sep d (by simp) (.inr h)
      rw [sameClassFind, if_neg hstart, hleft, matchName_self classEnd_iff hv.1 huh]
      simp
    obtain ⟨i, hm, hi⟩ := matchName_other classEnd_iff hx.1 hx.not_sep hv.1 hv.not_sep huh hne
    rw [← hleft] at hm
    obtain ⟨k, b, hk, hb, hskip⟩ := sameClassFind_skip (n := n) hx.1 hx.not_sep hm (by omega)
    obtain ⟨m, b', hle, hb', hrest⟩ := sameClassFind_inside hv (y := x.drop k)
      (fun e he => hx.not_sep e (mem_of_mem_drop he)) huh hb (n := n) (by
        rw [length_drop]
        omega)
    rw [length_drop] at hle
    rw [hskip, hrest]
    obtain ⟨m, rfl⟩ : ∃ m', m = m' + 1 := ⟨m - 1, by omega⟩
    by_cases hxs : xs = []
    · have hend : t.head? = none ∨ t.head? = some '/' := by
        rcases hh : t.head? with _ | d
        · exact .inl rfl
        exact .inr (by rw [ht d hh])
      simp only [hxs, if_true, nil_append, sameClassFind, hend]
      simp [Ne.symm hne]
    -- the comma before the next name
    have hcomma : matchName classEnd (some b' == none || some b' == some ',')
        (',' :: (sdsjoin xs ',' ++ t)) v = .ok (some 0) := by
      obtain ⟨w, ws, rfl⟩ := exists_cons_of_ne_nil hv.1
      have hw : ',' ≠ w := fun h => hv.not_sep w (by simp) (.inl h.symm)
      simp [matchName, hw]
    have hprev' : some ',' = none ∨ some ',' = some ',' := .inr rfl
    have hrec := ih (n := m) hxs (fun y hy => hcn y (by simp [hy])) hprev'
      (by simp only [hxs, if_false, length_cons] at hlen; omega)
    simp only [hxs, if_false, cons_append, sameClassFind, head?_cons, reduceCtorEq,
      Option.some.injEq, Char.reduceEq, or_self, hcomma, ok_bind, Nat.zero_max,
      Nat.sub_self, drop_zero, drop_succ_cons, hrec]
    simp [Ne.symm hne]

theorem exists_dropWhile (h : ∃ d ∈ L, s ∈ d) :
    ∃ c M, L.dropWhile (s ∉ ·) = c :: M ∧ s ∈ c ∧ c ∈ L := by
  induction L with
  | nil => simp at h
  | cons d L ih =>
    by_cases hd : s ∈ d
    · exact ⟨d, L, dropWhile_cons_of_neg (by simpa using hd), hd, by simp⟩
    obtain ⟨c, M, hcM, hsc, hc⟩ := ih (by simpa [hd] using h)
    exact ⟨c, M, by rw [dropWhile_cons_of_pos (by simpa using hd), hcM], hsc, by simp [hc]⟩

/-- **`sameClass` is the relation of the partition.** -/
theorem sameClass_render (cs : Classes) (hs : s ∈ cs.elements) (hv : v ∈ cs.elements) :
    ∃ b, sameClass cs.render s v = .ok b ∧ (b = true ↔ cs.partition s v) := by
  have hmem : ∃ d ∈ cs.toList, s ∈ d := mem_flatten.mp hs
  obtain ⟨c, M, hcM, hsc, hc⟩ := exists_dropWhile hmem
  have hstart : sameClassStart s (cs.render.length + 1) none cs.render cs.render =
      .ok (render (c :: M)) := by
    obtain ⟨d, L, hcs⟩ := exists_cons_of_ne_nil (ne_nil_of_mem hc)
    have hd : d ∈ cs.toList := by rw [hcs]; simp
    have hrender : cs.render = render (d :: L) := by rw [Classes.render, hcs]
    rw [hcs] at hmem hcM
    rw [hrender, sameClassStart_render (cs.name_ok hs) _ (cs.ne d hd) (cs.names d hd)
      (fun e he => ⟨cs.ne e (by rw [hcs]; simp [he]), cs.names e (by rw [hcs]; simp [he])⟩)
      (by simpa using hmem) (.inl rfl)]
    · by_cases hsd : s ∈ d
      · rw [dropWhile_cons_of_neg (by simpa using hsd)] at hcM
        rw [if_pos hsd, hcM]
      rw [dropWhile_cons_of_pos (by simpa using hsd)] at hcM
      rw [if_neg hsd, hcM]
    have hlen := cs.length_elements_le
    rw [Classes.elements, hcs, flatten_cons, length_append] at hlen
    rwa [← hrender]
  refine ⟨decide (v ∈ c), ?_, ?_⟩
  · rw [sameClass, hstart, ok_bind, render_cons, sameClassFind_join (cs.name_ok hv) (cs.ne c hc)
      (cs.names c hc) ?_ (.inl rfl) (by rw [length_append]; omega)]
    intro d hd
    split at hd
    · cases hd
    · simpa using hd.symm
  rw [decide_eq_true_iff, ← cs.partition_iff_mem hc hsc]
  exact ⟨cs.partition.symm', cs.partition.symm'⟩

/-- `sameClass` reads no byte after the terminator, and two elements of a content are found in one
class if a class has both. -/
theorem sameClass_iff {buf : Sds} (hbuf : WellFormed buf) (hs : s ∈ elementsOf buf)
    (hv : v ∈ elementsOf buf) :
    ∃ b, sameClass buf s v = .ok b ∧ (b = true ↔ ∃ c ∈ classesOf buf, s ∈ c ∧ v ∈ c) := by
  obtain ⟨cs, rfl, -⟩ := hbuf.exists_classes
  rw [cs.elementsOf_render] at hs hv
  rw [cs.classesOf_render]
  obtain ⟨b, hb, hiff⟩ := sameClass_render cs hs hv
  refine ⟨b, hb, hiff.trans ⟨fun h => ?_, ?_⟩⟩
  · obtain ⟨c, hc, hvc⟩ := mem_flatten.mp hv
    exact ⟨c, hc, (cs.partition_iff_mem hc hvc).mp h, hvc⟩
  rintro ⟨c, hc, hsc, hvc⟩
  exact (cs.partition_iff_mem hc hvc).mpr hsc

theorem sameClass_iff_apart : ∃ b, sameClass ['a', ',', 'b', '/', 'c'] ['b'] ['c'] = .ok b ∧
    (b = true ↔ ∃ c ∈ classesOf ['a', ',', 'b', '/', 'c'], ['b'] ∈ c ∧ ['c'] ∈ c) :=
  sameClass_iff (by decide) (by decide) (by decide)

end UfsRedis
