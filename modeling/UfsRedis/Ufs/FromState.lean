import UfsRedis.Ot.OtUfs
import UfsRedis.Ot.StringLemmas

/-!
# The content of a vertice from the content before it

`updateVerticeUfsFromState` applies an operation to a content string. On the string of well-formed
classes it merges two classes or takes names out of one (`fromState_union`, `fromState_split`): the
result is again such a string, with the same names, and denotes the glued or cut partition.
-/

namespace UfsRedis

open List Lib Partition

/-- The loop that finds the first class with the first name of each operand; `-1` is `none`. -/
def classScan (argv1 argv2 : Sds) :
    Nat → List Sds → Option Nat → Option Nat → Except Fault (Option Nat × Option Nat)
  | _, [], c1, c2 => .ok (c1, c2)
  | i, e :: elements, c1, c2 => do
    let c1 ← match c1 with
      | some k => .ok (some k)
      | none => do .ok (if ← findstr e argv1 then some i else none)
    let c2 ← match c2 with
      | some k => .ok (some k)
      | none => do .ok (if ← findstr e argv2 then some i else none)
    if c1.isSome && c2.isSome then .ok (c1, c2)
    else classScan argv1 argv2 (i + 1) elements c1 c2

/-- The loop that writes the classes with `temp` for class `low` and without class `high`. -/
def writeUnion (temp : Sds) (low high len : Nat) : Nat → List Sds → Sds
  | _, [] => []
  | i, e :: elements =>
    if i = high then writeUnion temp low high len (i + 1) elements
    else
      (if i = low then temp else e) ++
        (if high ≠ len - 1 then (if i ≠ len - 1 then ['/'] else [])
          else (if i ≠ len - 2 then ['/'] else [])) ++
        writeUnion temp low high len (i + 1) elements

/-- The loop that finds the class to split: the first one with the first name of the operand,
unless the operand is as long as the class. -/
def splitScan (argv1 : Sds) : Nat → List Sds → Except Fault (Option Nat)
  | _, [] => .ok none
  | i, e :: elements => do
    if ← findstr e argv1 then .ok (if e.length ≠ argv1.length then some i else none)
    else splitScan argv1 (i + 1) elements

/-- The loop that writes the classes with `temp` and `argv1` for class `argvclass`. -/
def writeSplit (temp argv1 : Sds) (argvclass len : Nat) : Nat → List Sds → Sds
  | _, [] => []
  | i, e :: elements =>
    (if i ≠ argvclass then e ++ (if i ≠ len - 1 then ['/'] else [])
      else temp ++ '/' :: (argv1 ++ if argvclass ≠ len - 1 then ['/'] else [])) ++
      writeSplit temp argv1 argvclass len (i + 1) elements

/-- `v_ufs` of a union: the classes with `argv1class` and `argv2class` made one; empty if they are
one class. -/
def unionUfs (elements : List Sds) (argv1class argv2class : Nat) : Sds :=
  if argv1class ≠ argv2class then
    let low := min argv1class argv2class
    let high := max argv1class argv2class
    let temp := elements.getD low [] ++ ',' :: elements.getD high []
    writeUnion temp low high elements.length 0 elements
  else []

/-- `v_ufs` of a split: the classes with the names `argv1` taken out of `argvclass`. -/
def splitUfs (elements : List Sds) (argv1 : Sds) (argvclass : Nat) : Sds :=
  writeSplit (sdsDel (elements.getD argvclass []) argv1) argv1 argvclass elements.length 0 elements

/-- `updateVerticeUfsFromState(u,type,argv1,argv2,v,len_u)`: the new content of `v`. -/
def updateVerticeUfsFromState (u : Sds) (op : UfsOp) (lenU : Nat) : Except Fault Sds := do
  let elements ← sdssplitlen u lenU '/'
  let vUfs ← match op.optype with
    | .union => do
      if op.argv1 = star then .ok []
      else if (← deref op.argv2) = star then .ok []
      else
        let argv2 ← deref op.argv2
        match ← classScan op.argv1 argv2 0 elements none none with
        | (some argv1class, some argv2class) => .ok (unionUfs elements argv1class argv2class)
        | (none, none) => .ok []
        -- `elements[-1]` is read
        | _ => .error .indexBounds
    | .split => do
      if op.argv1 = star then .ok []
      else
        match ← splitScan op.argv1 0 elements with
        | some argvclass => .ok (splitUfs elements op.argv1 argvclass)
        | none => .ok []
  .ok (if vUfs = [] then u else vUfs)

/-! ## Merging two classes, taking names out of one -/

namespace Classes

variable (cs : Classes) {A B C : List (List Sds)} {c d : List Sds}

theorem exists_merge (h : cs.toList = A ++ c :: (B ++ d :: C))
    (hxy : (x ∈ c ∧ y ∈ d) ∨ (x ∈ d ∧ y ∈ c)) :
    ∃ cs' : Classes, cs'.toList = A ++ (c ++ d) :: (B ++ C) ∧
      cs'.elements.Perm cs.elements ∧ cs'.partition = glue cs.partition {x, y} := by
  have hc : c ∈ cs.toList := by rw [h]; simp
  have hd : d ∈ cs.toList := by rw [h]; simp
  have hsub : ∀ e ∈ A ++ (c ++ d) :: (B ++ C), e ∈ cs.toList ∨ e = c ++ d := by
    intro e he
    rw [h]
    simp only [mem_append, mem_cons] at he ⊢
    tauto
  have hperm : (A ++ (c ++ d) :: (B ++ C)).flatten.Perm cs.toList.flatten := by
    rw [h]
    simp only [flatten_append, flatten_cons, append_assoc]
    refine List.Perm.append_left _ (List.Perm.append_left _ ?_)
    exact perm_append_comm_assoc d B.flatten C.flatten
  refine ⟨⟨A ++ (c ++ d) :: (B ++ C), ?_, ?_, hperm.nodup_iff.mpr cs.nodup⟩, rfl, hperm, ?_⟩
  · intro e he
    rcases hsub e he with he | rfl
    · exact cs.ne e he
    · simp [cs.ne c hc]
  · intro e he z hz
    rcases hsub e he with he | rfl
    · exact cs.names e he z hz
    rcases mem_append.mp hz with hz | hz
    · exact cs.names c hc z hz
    · exact cs.names d hd z hz
  -- a class meets `{x, y}` iff it is `c` or `d`
  have hm : ∀ u, Meets cs.partition {x, y} u ↔ u ∈ c ∨ u ∈ d := by
    intro u
    simp only [Meets, Set.mem_insert_iff, Set.mem_singleton_iff, exists_eq_or_imp, exists_eq_left]
    rcases hxy with ⟨hx, hy⟩ | ⟨hx, hy⟩
    · rw [cs.partition_iff_mem hc hx, cs.partition_iff_mem hd hy]
    · rw [cs.partition_iff_mem hd hx, cs.partition_iff_mem hc hy, or_comm]
  ext u v
  rw [partition_iff, glue_iff, partition_iff, hm, hm]
  simp only [h, inClass_append, inClass_cons, mem_append]
  constructor
  · rintro (rfl | hA | ⟨hu, hv⟩ | hB | hC)
    · exact .inl (.inl rfl)
    · exact .inl (.inr (.inl hA))
    · exact .inr ⟨hu, hv⟩
    · exact .inl (.inr (.inr (.inr (.inl hB))))
    · exact .inl (.inr (.inr (.inr (.inr (.inr hC)))))
  rintro ((rfl | hA | ⟨hu, hv⟩ | hB | ⟨hu, hv⟩ | hC) | ⟨hu, hv⟩)
  · exact .inl rfl
  · exact .inr (.inl hA)
  · exact .inr (.inr (.inl ⟨.inl hu, .inl hv⟩))
  · exact .inr (.inr (.inr (.inl hB)))
  · exact .inr (.inr (.inl ⟨.inr hu, .inr hv⟩))
  · exact .inr (.inr (.inr (.inr hC)))
  · exact .inr (.inr (.inl ⟨hu, hv⟩))

theorem exists_split (h : cs.toList = A ++ c :: B) (ht : t.Nodup) (hne : t ≠ [])
    (hsub : ∀ x ∈ t, x ∈ c) (hrest : c.filter (· ∉ t) ≠ []) :
    ∃ cs' : Classes, cs'.toList = A ++ c.filter (· ∉ t) :: t :: B ∧
      cs'.elements.Perm cs.elements ∧ cs'.partition = cut cs.partition {x | x ∈ t} := by
  have hc : c ∈ cs.toList := by rw [h]; simp
  have hmem : ∀ e ∈ A ++ c.filter (· ∉ t) :: t :: B,
      e ∈ cs.toList ∨ e = c.filter (· ∉ t) ∨ e = t := by
    intro e he
    rw [h]
    simp only [mem_append, mem_cons] at he ⊢
    tauto
  have hperm : (A ++ c.filter (· ∉ t) :: t :: B).flatten.Perm cs.toList.flatten := by
    rw [h]
    simp only [flatten_append, flatten_cons]
    refine List.Perm.append_left _ ?_
    rw [← append_assoc]
    refine List.Perm.append_right _ ?_
    exact perm_append_comm.trans (perm_append_filter (cs.class_nodup hc) ht hsub).symm
  refine ⟨⟨A ++ c.filter (· ∉ t) :: t :: B, ?_, ?_, hperm.nodup_iff.mpr cs.nodup⟩, rfl, hperm, ?_⟩
  · intro e he
    rcases hmem e he with he | rfl | rfl
    · exact cs.ne e he
    · exact hrest
    · exact hne
  · intro e he z hz
    rcases hmem e he with he | rfl | rfl
    · exact cs.names e he z hz
    · exact cs.names c hc z (mem_of_mem_filter hz)
    · exact cs.names c hc z (hsub z hz)
  -- the names `t` are in no class but `c`
  have hout : ∀ e, e ∈ A ∨ e ∈ B → ∀ u ∈ e, u ∉ t := by
    intro e he u hu hut
    have hnd := cs.nodup
    rw [h, flatten_append, flatten_cons, nodup_append] at hnd
    obtain ⟨-, hnd, hdisj⟩ := hnd
    have hdisj' := (nodup_append.mp hnd).2.2
    rcases he with he | he
    · exact hdisj u (mem_flatten.mpr ⟨e, he, hu⟩) u (by simp [hsub u hut]) rfl
    · exact hdisj' u (hsub u hut) u (mem_flatten.mpr ⟨e, he, hu⟩) rfl
  ext u v
  rw [partition_iff, cut_iff, partition_iff]
  simp only [h, inClass_append, inClass_cons, mem_filter, decide_not, Bool.not_eq_true',
    decide_eq_false_iff_not, Set.mem_ofPred_eq]
  constructor
  · rintro (rfl | ⟨e, he, hu, hv⟩ | ⟨hu, hv⟩ | ⟨hu, hv⟩ | ⟨e, he, hu, hv⟩)
    · exact ⟨.inl rfl, Iff.rfl⟩
    · exact ⟨.inr (.inl ⟨e, he, hu, hv⟩),
        iff_of_false (hout e (.inl he) u hu) (hout e (.inl he) v hv)⟩
    · exact ⟨.inr (.inr (.inl ⟨hu.1, hv.1⟩)), iff_of_false hu.2 hv.2⟩
    · exact ⟨.inr (.inr (.inl ⟨hsub u hu, hsub v hv⟩)), iff_of_true hu hv⟩
    exact ⟨.inr (.inr (.inr ⟨e, he, hu, hv⟩)),
      iff_of_false (hout e (.inr he) u hu) (hout e (.inr he) v hv)⟩
  rintro ⟨rfl | hA | ⟨hu, hv⟩ | hB, hiff⟩
  · exact .inl rfl
  · exact .inr (.inl hA)
  · by_cases hut : u ∈ t
    · exact .inr (.inr (.inr (.inl ⟨hut, hiff.mp hut⟩)))
    · exact .inr (.inr (.inl ⟨⟨hu, hut⟩, hv, fun hvt => hut (hiff.mpr hvt)⟩))
  · exact .inr (.inr (.inr (.inr hB)))

theorem findIdx?_class (h : cs.toList = A ++ c :: B) (hx : x ∈ c) :
    cs.toList.findIdx? (x ∈ ·) = some A.length := by
  have hA : A.findIdx? (x ∈ ·) = none := by
    rw [findIdx?_eq_none_iff]
    intro e he
    have hnd := cs.nodup
    rw [h, flatten_append, nodup_append] at hnd
    have : x ∉ e := fun hxe =>
      hnd.2.2 x (mem_flatten.mpr ⟨e, he, hxe⟩) x (by simp [hx]) rfl
    simpa using this
  rw [h, findIdx?_append, hA, findIdx?_cons]
  simp [hx]

theorem exists_pair (hc : c ∈ cs.toList) (hd : d ∈ cs.toList) (hne : c ≠ d) :
    ∃ A B C, cs.toList = A ++ c :: (B ++ d :: C) ∨ cs.toList = A ++ d :: (B ++ c :: C) := by
  obtain ⟨A, B, h⟩ := append_of_mem hc
  have hd' : d ∈ A ∨ d ∈ B := by
    rw [h] at hd
    simpa [Ne.symm hne] using hd
  rcases hd' with hd' | hd'
  · obtain ⟨A1, A2, rfl⟩ := append_of_mem hd'
    exact ⟨A1, A2, B, .inr (by simp [h])⟩
  obtain ⟨B1, B2, rfl⟩ := append_of_mem hd'
  exact ⟨A, B1, B2, .inl h⟩

end Classes

/-! ## The loops -/

/-- The classes that `writeUnion` writes. -/
def unionClasses (temp : Sds) (low high : Nat) : Nat → List Sds → List Sds
  | _, [] => []
  | i, e :: elements =>
    if i = high then unionClasses temp low high (i + 1) elements
    else (if i = low then temp else e) :: unionClasses temp low high (i + 1) elements

variable {low high i : Nat} {es : List Sds}

theorem unionClasses_eq_nil :
    unionClasses temp low high i es = [] ↔ es = [] ∨ (i = high ∧ es.length = 1) := by
  obtain _ | ⟨e, es⟩ := es
  · simp [unionClasses]
  by_cases h : i = high
  · cases es <;> simp [unionClasses, h]
  · simp [unionClasses, h]

theorem writeUnion_eq (temp : Sds) (low : Nat) (hi : high < i + es.length) :
    writeUnion temp low high (i + es.length) i es =
      sdsjoin (unionClasses temp low high i es) '/' := by
  generalize hlen : i + es.length = len at hi
  induction es generalizing i with
  | nil => rfl
  | cons e es ih =>
    simp only [length_cons] at hlen
    have hrec := ih (i := i + 1) (by omega)
    by_cases h : i = high
    · rw [writeUnion, if_pos h, hrec, unionClasses, if_pos h]
    rw [writeUnion, if_neg h, hrec, unionClasses, if_neg h, sdsjoin_cons_eq, append_assoc]
    congr 1
    -- class `i` is the last one written
    have hlast : unionClasses temp low high (i + 1) es = [] ↔
        if high ≠ len - 1 then i = len - 1 else i = len - 2 := by
      rw [unionClasses_eq_nil, ← length_eq_zero_iff]
      split <;> omega
    by_cases hu : unionClasses temp low high (i + 1) es = []
    · have := hlast.mp hu
      split at this <;> simp_all
    have := mt hlast.mpr hu
    split at this <;> simp_all

theorem unionClasses_append (temp : Sds) (es : List Sds)
    (h : ∀ k, i ≤ k → k < i + A.length → k ≠ low ∧ k ≠ high) :
    unionClasses temp low high i (A ++ es) = A ++ unionClasses temp low high (i + A.length) es := by
  induction A generalizing i with
  | nil => rfl
  | cons a A ih =>
    obtain ⟨h1, h2⟩ := h i (le_refl i) (by simp)
    rw [cons_append, unionClasses, if_neg h2, if_neg h1, ih, cons_append,
      length_cons, add_assoc, add_comm 1]
    intro k hk hlt
    exact h k (by omega) (by simp; omega)

theorem writeSplit_eq (temp argv1 : Sds)
    (hk : k = i + A.length) : writeSplit temp argv1 k (i + (A ++ e :: B).length) i (A ++ e :: B) =
      sdsjoin (A ++ temp :: argv1 :: B) '/' := by
  have hrest : ∀ (len j : Nat) (B : List Sds), k < j → len = j + B.length →
      writeSplit temp argv1 k len j B = sdsjoin B '/' := by
    intro len j B hj hlen
    induction B generalizing j with
    | nil => rfl
    | cons b B ih =>
      simp only [length_cons] at hlen
      rw [writeSplit, ih (j + 1) (by omega) (by omega), if_pos (by omega), sdsjoin_cons_eq,
        append_assoc]
      by_cases hB : B = []
      · have : j = len - 1 := by simp [hB] at hlen; omega
        simp [hB, this]
      have := length_pos_of_ne_nil hB
      simp [hB, show j ≠ len - 1 by omega]
  generalize hlen : i + (A ++ e :: B).length = len
  induction A generalizing i with
  | nil =>
    simp only [nil_append, length_cons, length_nil, add_zero] at hlen hk ⊢
    rw [writeSplit, if_neg (by omega), hrest len (i + 1) B (by omega) (by omega),
      sdsjoin_cons temp (by simp), sdsjoin_cons_eq argv1]
    by_cases hB : B = []
    · have : k = len - 1 := by simp [hB] at hlen; omega
      simp [hB, this]
    have := length_pos_of_ne_nil hB
    simp [hB, show k ≠ len - 1 by omega]
  | cons a A ih =>
    simp only [cons_append, length_cons, length_append] at hlen hk ⊢
    rw [writeSplit, ih (i := i + 1) (by omega) (by simp; omega), if_pos (by omega),
      if_pos (by omega), sdsjoin_cons a (by simp), append_assoc]
    rfl

/-! ## The specification -/

variable (cs : Classes) {v w x y t₀ : Sds} {c t : List Sds} {A B : List (List Sds)}

theorem findstr_class (hc : c ∈ cs.toList) (hv : firstName v = .ok x)
    (hx : NameOk x) : findstr (sdsjoin c ',') v = .ok (decide (x ∈ c)) :=
  findstr_join hv hx.1 hx.2.1 (cs.ne c hc) fun z hz => (cs.names c hc z hz).comma

theorem classScan_eq (hv : firstName v = .ok x) (hw : firstName w = .ok y) (hx : NameOk x)
    (hy : NameOk y) {L : List (List Sds)} (hL : ∀ c ∈ L, c ∈ cs.toList) (i : Nat)
    (c1 c2 : Option Nat) : classScan v w i (L.map (sdsjoin · ',')) c1 c2 =
      .ok (c1.or ((L.findIdx? (x ∈ ·)).map (· + i)), c2.or ((L.findIdx? (y ∈ ·)).map (· + i))) := by
  induction L generalizing i c1 c2 with
  | nil => simp [classScan]
  | cons d L ih =>
    have h1 := findstr_class cs (hL d (by simp)) hv hx
    have h2 := findstr_class cs (hL d (by simp)) hw hy
    have hrec := ih (fun c hc => hL c (by simp [hc])) (i + 1)
    have hmap : ∀ o : Option Nat, (o.map (· + 1)).map (· + i) = o.map (· + (i + 1)) := by
      intro o
      obtain _ | k := o
      · rfl
      simp; omega
    simp only [map_cons, classScan, h1, h2, findIdx?_cons, hrec]
    cases c1 <;> cases c2 <;> by_cases hxd : x ∈ d <;> by_cases hyd : y ∈ d <;>
      simp [hxd, hyd, hmap, -Option.map_map]

theorem splitScan_eq (hv : firstName v = .ok x) (hx : NameOk x)
    (h : ∀ d ∈ A ++ c :: B, d ∈ cs.toList) (hA : ∀ d ∈ A, x ∉ d) (hc : x ∈ c)
    (i : Nat) : splitScan v i ((A ++ c :: B).map (sdsjoin · ',')) =
      .ok (if (sdsjoin c ',').length ≠ v.length then some (i + A.length) else none) := by
  induction A generalizing i with
  | nil => simp [splitScan, findstr_class cs (h c (by simp)) hv hx, hc]
  | cons d A ih =>
    rw [cons_append, map_cons, splitScan, findstr_class cs (h d (by simp)) hv hx, ok_bind,
      ih (fun e he => h e (mem_cons_of_mem d he)) fun e he => hA e (by simp [he])]
    simp [hA d (by simp), add_assoc, add_comm 1]

theorem Classes.render_ne_nil (h : cs.toList ≠ []) : cs.render ≠ [] := by
  apply sdsjoin_eq_nil
  · simpa using h
  · simpa using fun e he => cs.join_ne_nil he

theorem unionUfs_comm (es : List Sds) (i j : Nat) : unionUfs es i j = unionUfs es j i := by
  simp only [unionUfs, ne_comm (a := i), min_comm i, max_comm i]

theorem unionUfs_classes {C : List (List Sds)} {d : List Sds}
    (h : cs.toList = A ++ c :: (B ++ d :: C)) :
    unionUfs (cs.toList.map (sdsjoin · ',')) A.length (A.length + 1 + B.length) =
      render (A ++ (c ++ d) :: (B ++ C)) := by
  have hc : c ≠ [] := cs.ne c (by rw [h]; simp)
  have hd : d ≠ [] := cs.ne d (by rw [h]; simp)
  have hlow : (cs.toList.map (sdsjoin · ',')).getD A.length [] = sdsjoin c ',' := by
    rw [h]; simp
  have hhigh : (cs.toList.map (sdsjoin · ',')).getD (A.length + 1 + B.length) [] =
      sdsjoin d ',' := by
    have h' : cs.toList = (A ++ c :: B) ++ d :: C := by rw [h]; simp
    have hl : A.length + 1 + B.length = ((A ++ c :: B).map (sdsjoin · ',')).length := by
      simp; omega
    rw [h', map_append, hl]
    simp
  have hlen : A.length + 1 + B.length < 0 + (cs.toList.map (sdsjoin · ',')).length := by
    rw [h]; simp; omega
  have hw := writeUnion_eq (sdsjoin (c ++ d) ',') A.length (i := 0) hlen
  rw [zero_add] at hw
  simp only [unionUfs]
  rw [if_pos (by omega), min_eq_left (by omega), max_eq_right (by omega), hlow, hhigh,
    ← sdsjoin_append hc hd ',', hw, render, h]
  congr 1
  simp only [map_append, map_cons]
  rw [unionClasses_append _ _ (by intro k _ hk; simp at hk; omega), length_map, zero_add,
    unionClasses, if_neg (by omega), if_pos rfl,
    unionClasses_append _ _ (by intro k hk hlt; simp at hlt; omega), length_map, unionClasses,
    if_pos rfl]
  congr 2
  have hC := unionClasses_append (sdsjoin (c ++ d) ',') (i := A.length + 1 + B.length + 1)
    (A := C.map (sdsjoin · ',')) [] fun k hk _ =>
      (⟨by omega, by omega⟩ : k ≠ A.length ∧ k ≠ A.length + 1 + B.length)
  simpa [unionClasses] using hC

theorem splitUfs_classes (h : cs.toList = A ++ c :: B)
    (hsub : ∀ x ∈ t, x ∈ c) : splitUfs (cs.toList.map (sdsjoin · ',')) (sdsjoin t ',') A.length =
      render (A ++ c.filter (· ∉ t) :: t :: B) := by
  have hc : c ∈ cs.toList := by rw [h]; simp
  have hget : (cs.toList.map (sdsjoin · ',')).getD A.length [] = sdsjoin c ',' := by
    rw [h]; simp
  have hw := writeSplit_eq (sdsjoin (c.filter (· ∉ t)) ',') (sdsjoin t ',') (i := 0)
    (A := A.map (sdsjoin · ',')) (B := B.map (sdsjoin · ',')) (e := sdsjoin c ',') rfl
  simp only [zero_add, length_map] at hw
  rw [splitUfs, hget, sdsDel_join (cs.class_nodup hc) (cs.names c hc) fun x hx =>
    cs.names c hc x (hsub x hx), h, map_append, map_cons, hw]
  simp [render]

section

variable (hv : firstName v = .ok x) (hw : firstName w = .ok y) (hx : x ∈ cs.elements)
  (hy : y ∈ cs.elements) (hvs : v ≠ star) (hws : w ≠ star)
include hv hw hx hy hvs hws

/-- A union of two names: nothing is written for names of one class, and else their classes are
merged. -/
theorem fromState_union_cases : (cs.partition x y ∧
      updateVerticeUfsFromState cs.render (unionOp v w) cs.render.length = .ok cs.render) ∨
    (¬ cs.partition x y ∧ ∃ cs' : Classes,
      updateVerticeUfsFromState cs.render (unionOp v w) cs.render.length = .ok cs'.render ∧
      cs'.elements.Perm cs.elements ∧ cs'.partition = glue cs.partition {x, y}) := by
  obtain ⟨c, hc, hxc⟩ := mem_flatten.mp hx
  obtain ⟨d, hd, hyd⟩ := mem_flatten.mp hy
  have hscan := classScan_eq cs hv hw (cs.name_ok hx) (cs.name_ok hy) (fun c hc => hc) 0 none none
  simp only [Option.none_or, add_zero, Option.map_id_fun', id_eq] at hscan
  simp only [updateVerticeUfsFromState, sdssplitlen_length, cs.split_render, ok_bind, unionOp,
    deref_some, hvs, hws, if_false, hscan]
  by_cases hcd : c = d
  · subst hcd
    obtain ⟨A, B, h⟩ := append_of_mem hc
    rw [cs.findIdx?_class h hxc, cs.findIdx?_class h hyd]
    exact .inl ⟨(cs.partition_iff_mem hc hyd).mpr hxc, by simp [unionUfs]⟩
  refine .inr ⟨fun hxy => hcd ?_, ?_⟩
  · exact cs.class_unique hc hd hxc ((cs.partition_iff_mem hd hyd).mp hxy)
  obtain ⟨A, B, C, h | h⟩ := cs.exists_pair hc hd hcd
  · have h' : cs.toList = (A ++ c :: B) ++ d :: C := by rw [h]; simp
    obtain ⟨cs', hl, hperm, hpart⟩ := cs.exists_merge h (.inl ⟨hxc, hyd⟩)
    refine ⟨cs', ?_, hperm, hpart⟩
    rw [cs.findIdx?_class h hxc, cs.findIdx?_class h' hyd, length_append, length_cons,
      show A.length + (B.length + 1) = A.length + 1 + B.length by omega]
    simp only [unionUfs_classes cs h, ← hl]
    exact congrArg _ (if_neg (cs'.render_ne_nil (by simp [hl])))
  have h' : cs.toList = (A ++ d :: B) ++ c :: C := by rw [h]; simp
  obtain ⟨cs', hl, hperm, hpart⟩ := cs.exists_merge h (.inr ⟨hxc, hyd⟩)
  refine ⟨cs', ?_, hperm, hpart⟩
  rw [cs.findIdx?_class h hyd, cs.findIdx?_class h' hxc, length_append, length_cons,
    show A.length + (B.length + 1) = A.length + 1 + B.length by omega]
  simp only [unionUfs_comm _ (A.length + 1 + B.length), unionUfs_classes cs h, ← hl]
  exact congrArg _ (if_neg (cs'.render_ne_nil (by simp [hl])))

theorem fromState_union : ∃ cs' : Classes,
      updateVerticeUfsFromState cs.render (unionOp v w) cs.render.length = .ok cs'.render ∧
      cs'.elements.Perm cs.elements ∧ cs'.partition = glue cs.partition {x, y} := by
  rcases fromState_union_cases cs hv hw hx hy hvs hws with ⟨hxy, hr⟩ | ⟨-, hr⟩
  · refine ⟨cs, hr, .refl _, (glue_eq_self ?_).symm⟩
    rintro u (rfl | rfl) u' (rfl | rfl)
    · exact cs.partition.refl' _
    · exact hxy
    · exact cs.partition.symm' hxy
    · exact cs.partition.refl' _
  · exact hr

end

theorem fromState_union_star (h : v = star ∨ w = star) :
    updateVerticeUfsFromState cs.render (unionOp v w) cs.render.length = .ok cs.render := by
  by_cases hv : v = star
  · simp [updateVerticeUfsFromState, sdssplitlen_length, unionOp, hv]
  · simp [updateVerticeUfsFromState, sdssplitlen_length, unionOp, hv, h.resolve_left hv]

theorem fromState_split_star :
    updateVerticeUfsFromState cs.render (splitOp star) cs.render.length = .ok cs.render := by
  simp [updateVerticeUfsFromState, sdssplitlen_length, splitOp]

theorem fromState_split_cases (hc : c ∈ cs.toList)
    (ht : (t₀ :: t).Nodup) (hsub : ∀ x ∈ t₀ :: t, x ∈ c)
    (hfirst : firstName (sdsjoin (t₀ :: t) ',') = .ok t₀) (hstar : sdsjoin (t₀ :: t) ',' ≠ star) :
    ((∀ x ∈ c, x ∈ t₀ :: t) ∧
      updateVerticeUfsFromState cs.render (splitOp (sdsjoin (t₀ :: t) ',')) cs.render.length =
        .ok cs.render) ∨ ((∃ x ∈ c, x ∉ t₀ :: t) ∧ ∃ cs' : Classes,
      updateVerticeUfsFromState cs.render (splitOp (sdsjoin (t₀ :: t) ',')) cs.render.length =
        .ok cs'.render ∧
      cs'.elements.Perm cs.elements ∧ cs'.partition = cut cs.partition {x | x ∈ t₀ :: t}) := by
  obtain ⟨A, B, h⟩ := append_of_mem hc
  have ht0 : t₀ ∈ c := hsub t₀ (by simp)
  have hA : ∀ d ∈ A, t₀ ∉ d := by
    intro d hd htd
    have hnd := cs.nodup
    rw [h, flatten_append, nodup_append] at hnd
    exact hnd.2.2 t₀ (mem_flatten.mpr ⟨d, hd, htd⟩) t₀ (by simp [ht0]) rfl
  have hscan := splitScan_eq cs hfirst (cs.names c hc t₀ ht0) (fun d hd => by rw [h]; exact hd) hA
    ht0 0
  rw [← h, zero_add] at hscan
  simp only [updateVerticeUfsFromState, sdssplitlen_length, cs.split_render, ok_bind, splitOp,
    hstar, if_false, hscan]
  obtain ⟨-, hall⟩ := cplt_test (cs.class_nodup hc) ht hsub (by simp) (cs.names c hc)
  by_cases hcov : ∀ x ∈ c, x ∈ t₀ :: t
  · exact .inl ⟨hcov, by simp [hall.mpr hcov]⟩
  have hex : ∃ x ∈ c, x ∉ t₀ :: t := by
    by_contra hno
    exact hcov fun x hx => by_contra fun hxt => hno ⟨x, hx, hxt⟩
  refine .inr ⟨hex, ?_⟩
  have hrest : c.filter (· ∉ t₀ :: t) ≠ [] := by
    obtain ⟨x, hx, hxt⟩ := hex
    exact ne_nil_of_mem (mem_filter.mpr ⟨hx, by simpa using hxt⟩)
  obtain ⟨cs', hl, hperm, hpart⟩ := cs.exists_split h ht (by simp) hsub hrest
  refine ⟨cs', ?_, hperm, hpart⟩
  rw [if_pos (mt hall.mp hcov)]
  simp only [splitUfs_classes cs h hsub, ← hl]
  exact congrArg _ (if_neg (cs'.render_ne_nil (by simp [hl])))

theorem fromState_split (hc : c ∈ cs.toList) (ht : (t₀ :: t).Nodup)
    (hsub : ∀ x ∈ t₀ :: t, x ∈ c) (hfirst : firstName (sdsjoin (t₀ :: t) ',') = .ok t₀)
    (hstar : sdsjoin (t₀ :: t) ',' ≠ star) : ∃ cs' : Classes,
      updateVerticeUfsFromState cs.render (splitOp (sdsjoin (t₀ :: t) ',')) cs.render.length =
        .ok cs'.render ∧
      cs'.elements.Perm cs.elements ∧ cs'.partition = cut cs.partition {x | x ∈ t₀ :: t} := by
  rcases fromState_split_cases cs hc ht hsub hfirst hstar with ⟨hcov, hr⟩ | ⟨-, hr⟩
  · refine ⟨cs, hr, .refl _, (cut_eq_self ?_).symm⟩
    have hp : ∀ u u', cs.partition u u' → u' ∈ t₀ :: t → u ∈ t₀ :: t := fun u u' huu' hu' =>
      hcov u ((cs.partition_iff_mem hc (hsub u' hu')).mp huu')
    exact fun u u' huu' => ⟨hp u' u (cs.partition.symm' huu'), hp u u' huu'⟩
  · exact hr

end UfsRedis
