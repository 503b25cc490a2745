import UfsRedis.Types.HllDense

/-!
# Sparse registers as opcodes

`Op` is an opcode with its run length and value in range, `encode` gives the bytes of a sequence of
opcodes and `expand` its registers. A sparse HLL is valid when its bytes are the encoding of opcodes
for exactly 16384 registers.
-/

namespace UfsRedis.Hll

open List Lib

/-- An opcode of the sparse encoding. A run of length `n + 1`, with the value `v + 1`. -/
inductive Op where
  | zero (n : Fin 64)
  | xzero (n : Fin 16384)
  | val (v : Fin 32) (n : Fin 4)
  deriving DecidableEq, Repr

namespace Op

def bytes : Op → List UInt8
  | zero n => [zeroSet (n + 1)]
  | xzero n => xzeroSet (n + 1)
  | val v n => [valSet (v + 1) (n + 1)]

def len : Op → Nat
  | zero n => n + 1
  | xzero n => n + 1
  | val _ n => n + 1

def value : Op → Nat
  | zero _ => 0
  | xzero _ => 0
  | val v _ => v + 1

def run (op : Op) : List Nat := List.replicate op.len op.value

theorem len_pos (op : Op) : 0 < op.len := by cases op <;> exact Nat.succ_pos _

theorem bytes_length_pos (op : Op) : 0 < op.bytes.length := by cases op <;> exact Nat.succ_pos _

theorem value_lt (op : Op) : op.value < 64 := by
  cases op with
  | zero n => exact Nat.succ_pos _
  | xzero n => exact Nat.succ_pos _
  | val v n =>
    simp only [value]
    omega

end Op

def encode (ops : List Op) : List UInt8 := ops.flatMap Op.bytes

def expand (ops : List Op) : List Nat := ops.flatMap Op.run

/-! ## The macros on the bytes of an opcode -/

theorem zero_macros (n : Fin 64) : isZero (zeroSet (n + 1)) = true ∧
    isXzero (zeroSet (n + 1)) = false ∧ isVal (zeroSet (n + 1)) = false ∧
    zeroLen (zeroSet (n + 1)) = n + 1 := by
  revert n
  decide

theorem val_macros (v : Fin 32) (n : Fin 4) : isZero (valSet (v + 1) (n + 1)) = false ∧
    isXzero (valSet (v + 1) (n + 1)) = false ∧ isVal (valSet (v + 1) (n + 1)) = true ∧
    valValue (valSet (v + 1) (n + 1)) = v + 1 ∧ valLen (valSet (v + 1) (n + 1)) = n + 1 := by
  revert v n
  decide

theorem xzero_byte (h : Fin 64) : isZero (UInt8.ofNat (h ||| 0x40)) = false ∧
    isXzero (UInt8.ofNat (h ||| 0x40)) = true ∧ isVal (UInt8.ofNat (h ||| 0x40)) = false ∧
    (UInt8.ofNat (h ||| 0x40)).toNat &&& 0x3f = h := by
  revert h
  decide

theorem xzero_macros (n : Fin 16384) : ∃ b0 b1, xzeroSet (n + 1) = [b0, b1] ∧ isZero b0 = false ∧
    isXzero b0 = true ∧ isVal b0 = false ∧ xzeroLen b0 b1 = n + 1 := by
  have hhigh : n.val >>> 8 < 64 := by
    rw [Nat.shiftRight_eq_div_pow]
    omega
  obtain ⟨h1, h2, h3, h4⟩ := xzero_byte ⟨n.val >>> 8, hhigh⟩
  refine ⟨_, _, rfl, h1, h2, h3, ?_⟩
  have hlow : (UInt8.ofNat (n.val &&& 0xff)).toNat = n.val % 2 ^ 8 := by
    rw [UInt8.toNat_ofNat', Nat.and_two_pow_sub_one_eq_mod n.val 8]
    exact Nat.mod_mod _ _
  have hmod : n.val % 2 ^ 8 < 2 ^ 8 := Nat.mod_lt _ (by omega)
  rw [xzeroLen, Nat.add_sub_cancel]
  simp only at h4
  rw [h4, hlow, Nat.shiftLeft_eq, mul_comm, ← Nat.two_pow_add_eq_or_of_lt hmod,
    Nat.shiftRight_eq_div_pow, Nat.div_add_mod]

/-! ## The loops over the opcodes -/

variable {pre post : List UInt8} {ops ops' : List Op} {op : Op} {fuel : Nat}

@[simp] theorem encode_nil : encode [] = [] := rfl

@[simp] theorem encode_cons : encode (op :: ops) = op.bytes ++ encode ops := flatMap_cons

@[simp] theorem encode_append : encode (ops ++ ops') = encode ops ++ encode ops' := flatMap_append

@[simp] theorem expand_nil : expand [] = [] := rfl

@[simp] theorem expand_cons : expand (op :: ops) = op.run ++ expand ops := flatMap_cons

@[simp] theorem expand_append : expand (ops ++ ops') = expand ops ++ expand ops' := flatMap_append

theorem length_le_encode (ops : List Op) : ops.length ≤ (encode ops).length := by
  induction ops with
  | nil => exact le_rfl
  | cons op ops ih =>
    have hpos := op.bytes_length_pos
    rw [encode_cons, length_append, length_cons]
    omega

theorem loadByte_append (pre rest : List UInt8) (b : UInt8) :
    loadByte (pre ++ b :: rest) pre.length = .ok b :=
  loadByte_eq (by simp)

theorem loadByte_append_succ (pre rest : List UInt8) (b b1 : UInt8) :
    loadByte (pre ++ b :: b1 :: rest) (pre.length + 1) = .ok b1 :=
  loadByte_eq (by simp)

def applyOp {σ : Type} (onZero : Nat → σ → σ) (onVal : Nat → Nat → σ → Except Fault σ) (s : σ) :
    Op → Except Fault σ
  | .zero n => .ok (onZero (n + 1) s)
  | .xzero n => .ok (onZero (n + 1) s)
  | .val v n => onVal (v + 1) (n + 1) s

variable {σ : Type} {p x y tail : List UInt8} {done : List Nat} {k first span : Nat}

section

variable (onZero : Nat → σ → σ) (onVal : Nat → Nat → σ → Except Fault σ)
include onZero onVal

/-- The loop over the first opcodes, up to an end behind them. -/
theorem sparseLoop_ops (endp fuel : Nat)
    (pre post : List UInt8) (ops : List Op) (s : σ) (hend : pre.length + (encode ops).length ≤ endp) :
    sparseLoop onZero onVal (pre ++ (encode ops ++ post)) endp (fuel + ops.length) pre.length s =
      ops.foldlM (applyOp onZero onVal) s >>= sparseLoop onZero onVal (pre ++ (encode ops ++ post)) endp
        fuel (pre.length + (encode ops).length) := by
  induction ops generalizing pre s with
  | nil => rfl
  | cons op ops ih =>
    have hpos := op.bytes_length_pos
    rw [encode_cons, length_append] at hend ⊢
    have hrest (s : σ) := ih (pre ++ op.bytes) s (by rw [length_append]; omega)
    simp only [length_append, append_assoc, add_assoc] at hrest
    rw [length_cons, ← add_assoc, sparseLoop, if_pos (by omega), foldlM_cons, append_assoc, bind_assoc]
    cases op with
    | zero n =>
      obtain ⟨h1, -, -, h4⟩ := zero_macros n
      simp only [Op.bytes, singleton_append, length_singleton] at hrest ⊢
      rw [loadByte_append, ok_bind, if_pos h1, h4]
      exact hrest _
    | xzero n =>
      obtain ⟨b0, b1, hb, h1, h2, -, h4⟩ := xzero_macros n
      simp only [Op.bytes, hb, cons_append, nil_append, length_cons, length_nil] at hrest ⊢
      rw [loadByte_append, ok_bind, if_neg (by simp [h1]), if_pos h2, loadByte_append_succ,
        ok_bind, h4]
      exact hrest _
    | val v n =>
      obtain ⟨h1, h2, -, h4, h5⟩ := val_macros v n
      simp only [Op.bytes, singleton_append, length_singleton] at hrest ⊢
      rw [loadByte_append, ok_bind, if_neg (by simp [h1]), if_neg (by simp [h2]), h4, h5]
      exact bind_congr fun s => hrest s

theorem sparseLoop_end (h : endp ≤ p') (s : σ) :
    sparseLoop onZero onVal p endp fuel p' s = .ok s := by
  cases fuel <;> exact if_neg (by omega)

theorem sparseLoop_eq
    (pre post : List UInt8) (ops : List Op) (s : σ) (hfuel : ops.length ≤ fuel) :
    sparseLoop onZero onVal (pre ++ (encode ops ++ post)) (pre.length + (encode ops).length) fuel
      pre.length s = ops.foldlM (applyOp onZero onVal) s := by
  obtain ⟨fuel, rfl⟩ := Nat.exists_eq_add_of_le' hfuel
  rw [sparseLoop_ops onZero onVal _ fuel pre post ops s le_rfl]
  exact (bind_congr fun s => sparseLoop_end onZero onVal le_rfl s).trans (bind_pure _)

theorem sparseLoop_encode (ops : List Op) (s : σ) :
    sparseLoop onZero onVal (withNul (encode ops)) (encode ops).length (encode ops).length 0 s =
      ops.foldlM (applyOp onZero onVal) s := by
  have hloop := sparseLoop_eq onZero onVal [] [0] ops s (length_le_encode ops)
  simpa [withNul] using hloop

end

/-! ## Register by register -/

/-- What `hllSparseToDense` and `hllMerge` do with one register: `step`, if it is not zero. -/
def overRegs (step : Nat → List UInt8 → Nat → Except Fault (List UInt8)) (s : Nat × List UInt8)
    (v : Nat) : Except Fault (Nat × List UInt8) :=
  (if v = 0 then .ok s.2 else step v s.2 s.1) >>= fun p => .ok (s.1 + 1, p)

section

variable {run : Nat → Nat → Nat × List UInt8 → Except Fault (Nat × List UInt8)}
  {step : Nat → List UInt8 → Nat → Except Fault (List UInt8)}

theorem foldlM_zeros (n : Nat) (s : Nat × List UInt8) :
    (replicate n 0).foldlM (overRegs step) s = .ok (s.1 + n, s.2) := by
  induction n generalizing s with
  | zero => rfl
  | succ n ih =>
    rw [replicate_succ, foldlM_cons, overRegs, if_pos rfl, ok_bind, ok_bind, ih, add_assoc, add_comm 1]

variable (hzero : ∀ v s, run v 0 s = .ok s)
  (hsucc : ∀ v n i p, run v (n + 1) (i, p) = step v p i >>= fun p => run v n (i + 1, p))
include hzero hsucc

theorem run_eq_foldlM {v : Nat} (hv : v ≠ 0) (n : Nat) (s : Nat × List UInt8) :
    run v n s = (replicate n v).foldlM (overRegs step) s := by
  induction n generalizing s with
  | zero => exact hzero v s
  | succ n ih =>
    rw [replicate_succ, foldlM_cons, overRegs, if_neg hv, bind_assoc]
    exact (hsucc v n s.1 s.2).trans (bind_congr fun p => ih _)

theorem foldlM_applyOp (ops : List Op) (s : Nat × List UInt8) :
    ops.foldlM (applyOp (fun runlen s => (s.1 + runlen, s.2)) run) s =
      (expand ops).foldlM (overRegs step) s := by
  induction ops generalizing s with
  | nil => rfl
  | cons op ops ih =>
    have hop : applyOp (fun runlen s => (s.1 + runlen, s.2)) run s op =
        op.run.foldlM (overRegs step) s := by
      cases op with
      | zero n => exact (foldlM_zeros _ s).symm
      | xzero n => exact (foldlM_zeros _ s).symm
      | val v n => exact run_eq_foldlM hzero hsucc (Nat.succ_ne_zero _) _ s
    rw [foldlM_cons, expand_cons, foldlM_append, hop]
    exact bind_congr ih

end

theorem setRun_zero (v : Nat) (s : Nat × List UInt8) : setRun v 0 s = .ok s := rfl

theorem setRun_succ (v n i : Nat) (p : List UInt8) : setRun v (n + 1) (i, p) =
    denseSetRegister p i v >>= fun p => setRun v n (i + 1, p) := rfl

theorem raiseRun_zero (v : Nat) (s : Nat × List UInt8) : raiseRun v 0 s = .ok s := rfl

theorem raiseRun_succ (v n i : Nat) (max : List UInt8) : raiseRun v (n + 1) (i, max) =
    raise max i v >>= fun max => raiseRun v n (i + 1, max) := rfl

theorem lt_of_mem_expand {v : Nat} (h : v ∈ expand ops) : v < 64 := by
  obtain ⟨op, -, hv⟩ := mem_flatMap.mp h
  exact (eq_of_mem_replicate hv).trans_lt op.value_lt

theorem toDense_spec (regs : List Nat) (hv : ∀ v ∈ regs, v < 64)
    (h : Dense p (done ++ replicate k 0)) (hlen : regs.length ≤ k) :
    ∃ p', regs.foldlM (overRegs fun v p i => denseSetRegister p i v) (done.length, p) =
          .ok (done.length + regs.length, p') ∧
      Dense p' (done ++ regs ++ replicate (k - regs.length) 0) := by
  induction regs generalizing p done k with
  | nil => exact ⟨p, rfl, by simpa using h⟩
  | cons v regs ih =>
    rw [length_cons] at hlen
    obtain ⟨k, rfl⟩ : ∃ k', k = k' + 1 := ⟨k - 1, by omega⟩
    obtain ⟨p1, hset, h1⟩ : ∃ p1,
        (if v = 0 then .ok p else denseSetRegister p done.length v) = .ok p1 ∧
          Dense p1 (done ++ [v] ++ replicate k 0) := by
      by_cases hv0 : v = 0
      · exact ⟨p, if_pos hv0, by rwa [hv0, append_assoc, singleton_append, ← replicate_succ]⟩
      have hr : done.length < numRegisters := by
        have := h.length_regs
        simp at this
        omega
      obtain ⟨p1, hset, h1⟩ := h.set hr (hv v mem_cons_self)
      refine ⟨p1, (if_neg hv0).trans hset, ?_⟩
      rwa [replicate_succ, set_append_right _ _ (Nat.le_refl _), Nat.sub_self, set_cons_zero,
        ← singleton_append, ← append_assoc] at h1
    obtain ⟨p2, hrun, h2⟩ := ih (fun u hu => hv u (mem_cons_of_mem _ hu)) h1 (by omega)
    rw [length_append, length_singleton] at hrun
    refine ⟨p2, ?_, ?_⟩
    · rw [foldlM_cons, overRegs, hset, ok_bind, ok_bind, hrun, length_cons, add_assoc, add_comm 1]
    · rwa [length_cons, Nat.add_sub_add_right, ← singleton_append, ← append_assoc]

/-! ## Merging -/

theorem raised_zero (b : UInt8) : raised b 0 = b := by
  simp [raised]

theorem mergeSparse_eq (regs : List Nat) (pre cur post : List UInt8)
    (hlen : cur.length = regs.length) :
    regs.foldlM (overRegs fun v max i => raise max i v) (pre.length, pre ++ (cur ++ post)) =
      .ok (pre.length + cur.length, pre ++ (zipWith raised cur regs ++ post)) := by
  induction regs generalizing pre cur with
  | nil =>
    obtain rfl : cur = [] := eq_nil_of_length_eq_zero hlen
    rfl
  | cons v regs ih =>
    obtain _ | ⟨b, cur⟩ := cur
    · cases hlen
    have hreg : (if v = 0 then .ok (pre ++ b :: (cur ++ post)) else
        raise (pre ++ b :: (cur ++ post)) pre.length v) =
        .ok (pre ++ raised b v :: (cur ++ post)) := by
      by_cases hv : v = 0
      · rw [if_pos hv, hv, raised_zero]
      · rw [if_neg hv, raise_append]
    have hrest := ih (pre ++ [raised b v]) cur (Nat.succ.inj hlen)
    simp only [length_append, length_singleton, append_assoc, singleton_append] at hrest
    rw [foldlM_cons, overRegs, cons_append, hreg, ok_bind, ok_bind, hrest, length_cons, add_assoc,
      add_comm 1]
    rfl

/-! ## The sum -/

theorem registerSum_replicate (v n : Nat) : registerSum (replicate n v) = pe v * n := by
  induction n with
  | zero => simp [registerSum]
  | succ n ih =>
    rw [replicate_succ, registerSum, ih, Nat.cast_add, Nat.cast_one]
    ring

/-- What `hllSparseSum` does with opcodes: with the zero registers added at the end, the sum is the
one over the registers. -/
theorem sparseSum_spec (ops : List Op) (e : Rat) (ez idx : Nat) :
    ∃ e', ops.foldlM (applyOp (fun runlen s => (s.1, s.2.1 + runlen, s.2.2 + runlen))
        (fun regval runlen s => .ok (s.1 + pe regval * runlen, s.2.1, s.2.2 + runlen)))
        (e, ez, idx) = .ok (e', ez + (expand ops).count 0, idx + (expand ops).length) ∧
      e' + ((expand ops).count 0 : Nat) = e + registerSum (expand ops) := by
  induction ops generalizing e ez idx with
  | nil => exact ⟨e, rfl, by simp [registerSum]⟩
  | cons op ops ih =>
    obtain ⟨e1, hop, hsum⟩ : ∃ e1, applyOp (fun runlen s => (s.1, s.2.1 + runlen, s.2.2 + runlen))
        (fun regval runlen s => .ok (s.1 + pe regval * runlen, s.2.1, s.2.2 + runlen))
        (e, ez, idx) op = .ok (e1, ez + op.run.count 0, idx + op.len) ∧
        e1 + (op.run.count 0 : Nat) = e + registerSum op.run := by
      rw [Op.run, registerSum_replicate, count_replicate]
      have hpe : pe 0 = 1 := rfl
      cases op with
      | zero n => exact ⟨e, rfl, by simp [Op.value, hpe]⟩
      | xzero n => exact ⟨e, rfl, by simp [Op.value, hpe]⟩
      | val v n => exact ⟨e + pe (v + 1) * (n + 1 : Nat), by simp [applyOp, Op.value, Op.len],
          by simp [Op.value, Op.len]⟩
    obtain ⟨e2, hops, hsum'⟩ := ih e1 (ez + op.run.count 0) (idx + op.len)
    have hrun : op.run.length = op.len := length_replicate
    refine ⟨e2, ?_, ?_⟩
    · rw [foldlM_cons, hop, ok_bind, hops, expand_cons, count_append, length_append,
        hrun, add_assoc, add_assoc]
    rw [expand_cons, count_append, registerSum_append, Nat.cast_add]
    linear_combination hsum + hsum'

/-! ## A valid sparse HLL -/

/-- The bytes are opcodes for exactly the registers `regs`. -/
def Sparse (bytes : List UInt8) (regs : List Nat) : Prop :=
  ∃ ops, bytes = encode ops ∧ expand ops = regs ∧ regs.length = numRegisters

variable {o : Hllhdr} {regs : List Nat}

section

variable {bytes max : List UInt8}

theorem Sparse.toDense (h : Sparse bytes regs) :
    ∃ dense, sparseLoop (fun runlen s => (s.1 + runlen, s.2)) setRun (withNul bytes) bytes.length
        bytes.length 0 (0, withNul (replicate denseSize 0)) = .ok (numRegisters, dense) ∧
      Dense dense regs := by
  obtain ⟨ops, rfl, hregs, hlen⟩ := h
  subst hregs
  obtain ⟨p, hloop, hp⟩ := toDense_spec (expand ops) (fun _ => lt_of_mem_expand)
    (show Dense _ ([] ++ replicate numRegisters 0) from Dense.zero) hlen.le
  rw [hlen, Nat.sub_self, nil_append, replicate_zero, append_nil] at hp
  rw [hlen, length_nil, Nat.zero_add] at hloop
  exact ⟨p, by rw [sparseLoop_encode, foldlM_applyOp setRun_zero setRun_succ, hloop], hp⟩

theorem hllSparseToDense_eq (h : Sparse o.registers regs)
    (henc : o.encoding = encSparse) (hd : Dense dense regs) : hllSparseToDense o =
      .ok ({ o with encoding := encDense, registers := dense.take denseSize }, true) := by
  obtain ⟨p, hloop, hp⟩ := h.toDense
  rw [hllSparseToDense, if_neg (by rw [henc]; decide)]
  dsimp only
  rw [hloop, ok_bind, hp.unique hd]
  exact if_neg (by simp)

theorem hllSparseSum_eq (h : Sparse bytes regs) :
    hllSparseSum bytes = .ok (registerSum regs, regs.count 0, false) := by
  obtain ⟨ops, rfl, rfl, hlen⟩ := h
  obtain ⟨e, hloop, hsum⟩ := sparseSum_spec ops 0 0 0
  rw [hllSparseSum, sparseLoop_encode, hloop, ok_bind]
  dsimp only
  rw [Nat.zero_add, Nat.zero_add, hsum, Rat.zero_add, hlen]
  rfl

theorem hllMerge_sparse (h : Sparse o.registers regs)
    (henc : o.encoding = encSparse) (hmax : max.length = numRegisters) :
    hllMerge max o = .ok (zipWith raised max regs, true) := by
  obtain ⟨ops, hbytes, rfl, hlen⟩ := h
  have hloop := mergeSparse_eq (expand ops) [] max [] (hmax.trans hlen.symm)
  simp only [nil_append, append_nil, length_nil, Nat.zero_add] at hloop
  rw [hllMerge, if_neg (by rw [henc]; decide), hbytes, sparseLoop_encode,
    foldlM_applyOp raiseRun_zero raiseRun_succ, hloop, ok_bind]
  rw [hmax]
  rfl

theorem hllMerge_dense (h : Dense (withNul o.registers) regs)
    (henc : o.encoding = encDense) (hmax : max.length = numRegisters) :
    hllMerge max o = .ok (zipWith raised max regs, true) := by
  have hloop := mergeDense_eq h [] max (by simpa using hmax)
  simp only [nil_append, length_nil, drop_zero, hmax] at hloop
  rw [hllMerge, if_pos henc, hloop, ok_bind]

end

/-! ## Finding an opcode -/

theorem exists_cover (h : index < (expand ops).length) :
    ∃ ops₁ op ops₂, ops = ops₁ ++ op :: ops₂ ∧ (expand ops₁).length ≤ index ∧
      index < (expand ops₁).length + op.len := by
  induction ops generalizing index with
  | nil => simp at h
  | cons op ops ih =>
    have hrun : op.run.length = op.len := length_replicate
    by_cases hlt : index < op.len
    · exact ⟨[], op, ops, rfl, Nat.zero_le _, by simpa using hlt⟩
    rw [expand_cons, length_append, hrun] at h
    obtain ⟨ops₁, op', ops₂, rfl, hle, hlt'⟩ :=
      ih (show index - op.len < (expand ops).length by omega)
    refine ⟨op :: ops₁, op', ops₂, rfl, ?_, ?_⟩
    · rw [expand_cons, length_append, hrun]
      omega
    rw [expand_cons, length_append, hrun]
    omega

theorem locate_step {rest} {endp index : Nat} {prev} (hend : pre.length < endp) :
    locate (pre ++ (op.bytes ++ rest)) endp index (fuel + 1) pre.length prev first span =
      if index + 1 ≤ first + op.len then .ok (pre.length, prev, first, op.len)
      else locate (pre ++ (op.bytes ++ rest)) endp index fuel (pre.length + op.bytes.length)
        (some pre.length) (first + op.len) op.len := by
  rw [locate, if_pos hend]
  cases op with
  | zero n =>
    obtain ⟨h1, -, -, h4⟩ := zero_macros n
    simp only [Op.bytes, singleton_append]
    rw [loadByte_append, ok_bind, if_pos h1, ok_bind, h4]
    rfl
  | xzero n =>
    obtain ⟨b0, b1, hb, h1, -, h3, h4⟩ := xzero_macros n
    simp only [Op.bytes, hb, cons_append, nil_append]
    rw [loadByte_append, ok_bind, if_neg (by simp [h1]), if_neg (by simp [h3]),
      loadByte_append_succ, ok_bind, ok_bind, h4]
    rfl
  | val v n =>
    obtain ⟨h1, -, h3, -, h5⟩ := val_macros v n
    simp only [Op.bytes, singleton_append]
    rw [loadByte_append, ok_bind, if_neg (by simp [h1]), if_pos h3, ok_bind, h5]
    rfl

/-- The loop ends at the opcode that covers the register; `prev` is the start of an opcode before
it. -/
theorem locate_eq {ops₁ ops₂} {index : Nat} {prev} (hle : first + (expand ops₁).length ≤ index)
    (hlt : index < first + (expand ops₁).length + op.len)
    (hfuel : (encode (ops₁ ++ op :: ops₂)).length ≤ fuel) :
    ∃ prev', locate (pre ++ (encode (ops₁ ++ op :: ops₂) ++ post))
        (pre.length + (encode (ops₁ ++ op :: ops₂)).length) index fuel pre.length prev first span =
        .ok (pre.length + (encode ops₁).length, prev', first + (expand ops₁).length, op.len) ∧
      (ops₁ = [] ∧ prev' = prev ∨
        ∃ a b, ops₁ = a ++ b ∧ prev' = some (pre.length + (encode a).length)) := by
  induction ops₁ generalizing pre fuel first span prev with
  | nil =>
    have hpos := op.bytes_length_pos
    rw [nil_append, encode_cons, length_append] at hfuel ⊢
    obtain ⟨fuel, rfl⟩ : ∃ f, fuel = f + 1 := ⟨fuel - 1, by omega⟩
    simp only [expand_nil, length_nil, add_zero] at hlt ⊢
    refine ⟨prev, ?_, Or.inl ⟨trivial, rfl⟩⟩
    rw [append_assoc, locate_step (by omega), if_pos (by omega)]
    rfl
  | cons op1 ops₁ ih =>
    have hpos := op1.bytes_length_pos
    have hrun : op1.run.length = op1.len := length_replicate
    rw [expand_cons, length_append, hrun] at hle hlt
    rw [cons_append, encode_cons, length_append] at hfuel ⊢
    obtain ⟨fuel, rfl⟩ : ∃ f, fuel = f + 1 := ⟨fuel - 1, by omega⟩
    obtain ⟨prev', hrest, hprev⟩ := @ih (pre ++ op1.bytes) fuel (first + op1.len) op1.len
      (some pre.length) (by omega) (by omega) (by omega)
    simp only [length_append, append_assoc] at hrest
    refine ⟨prev', ?_, Or.inr ?_⟩
    · rw [append_assoc, locate_step (by omega), if_neg (by omega), ← add_assoc, hrest,
        encode_cons, expand_cons, length_append, length_append, hrun, ← add_assoc,
        ← add_assoc]
    rcases hprev with ⟨-, rfl⟩ | ⟨a, b, rfl, rfl⟩
    · exact ⟨[], op1 :: ops₁, rfl, by simp⟩
    refine ⟨op1 :: a, b, rfl, ?_⟩
    rw [encode_cons, length_append, length_append, add_assoc]

/-! ## Merging adjacent values -/

theorem merge_bytes (b b1 m : UInt8) (htail : tail ≠ []) : ∃ tail', tail' ≠ [] ∧
      (do
        let buf ← storeByte (x ++ b :: b1 :: (y ++ tail)) (x.length + 1) m
        let buf ← memmove buf x.length (x.length + 1) (2 + y.length)
        storeByte buf (x.length + 1 + y.length) 0) = .ok (x ++ m :: (y ++ tail')) := by
  obtain ⟨t, ts, rfl⟩ := exists_cons_of_ne_nil htail
  refine ⟨0 :: t :: ts, by simp, ?_⟩
  have hset : (x ++ b :: b1 :: (y ++ t :: ts)).set (x.length + 1) m =
      x ++ b :: m :: (y ++ t :: ts) := by
    rw [set_append_right _ _ (by omega), show x.length + 1 - x.length = 1 by omega]
    rfl
  have hsplit : x ++ b :: m :: (y ++ t :: ts) = (x ++ [b]) ++ (m :: (y ++ [t]) ++ ts) := by simp
  have hslice : slice (x ++ b :: m :: (y ++ t :: ts)) (x.length + 1) (2 + y.length) =
      m :: (y ++ [t]) := by
    have hlen : x.length + 1 = (x ++ [b]).length := by simp
    rw [hsplit, hlen, slice_append, take_left' (by simp; omega)]
  have hdrop : (b :: m :: (y ++ t :: ts)).drop (m :: (y ++ [t])).length = t :: ts := by
    simp
  rw [storeByte_eq (by simp), ok_bind, hset, memmove_eq (by simp; omega) (by simp; omega),
    ok_bind, hslice, overwrite_append]
  have hlast : x ++ (m :: (y ++ [t]) ++ t :: ts) = (x ++ m :: y) ++ t :: t :: ts := by simp
  rw [hdrop, hlast, storeByte_eq (by simp; omega), set_append_right _ _ (by simp; omega),
    show x.length + 1 + y.length - (x ++ m :: y).length = 0 by simp; omega]
  simp

/-- The scan merges opcodes and keeps the registers. It stays at the start of an opcode. -/
theorem mergeLoop_spec (scanlen : Nat) (a b : List Op) (htail : tail ≠ []) :
    ∃ ops' tail', tail' ≠ [] ∧ expand ops' = expand (a ++ b) ∧
      mergeLoop scanlen (encode a).length (encode a ++ (encode b ++ tail),
        (encode a).length + (encode b).length) = .ok (encode ops' ++ tail', (encode ops').length) := by
  induction scanlen generalizing a b tail with
  | zero => exact ⟨a ++ b, tail, htail, rfl, by simp [mergeLoop]⟩
  | succ scanlen ih =>
    obtain _ | ⟨op, b⟩ := b
    · refine ⟨a, tail, htail, by simp, ?_⟩
      rw [mergeLoop, if_neg (by simp)]
      simp
    -- the scan goes on after the opcode
    have hnext := ih (a ++ [op]) b htail
    simp only [encode_append, encode_cons, encode_nil, append_nil, length_append,
      append_assoc, singleton_append, add_assoc] at hnext ⊢
    cases op with
    | zero n =>
      obtain ⟨h1, h2, -, -⟩ := zero_macros n
      simp only [Op.bytes, singleton_append, length_singleton] at hnext ⊢
      rw [mergeLoop, if_pos (by omega), loadByte_append, ok_bind, if_neg (by simp [h2]), if_pos h1]
      exact hnext
    | xzero n =>
      obtain ⟨b0, b1, hb, -, h2, -, -⟩ := xzero_macros n
      simp only [Op.bytes, hb, cons_append, nil_append, length_cons, length_nil] at hnext ⊢
      rw [mergeLoop, if_pos (by omega), loadByte_append, ok_bind, if_pos h2]
      exact hnext
    | val v n =>
      obtain ⟨h1, h2, -, h4, h5⟩ := val_macros v n
      simp only [Op.bytes, singleton_append, length_singleton] at hnext ⊢
      rw [mergeLoop, if_pos (by omega), loadByte_append, ok_bind, if_neg (by simp [h2]),
        if_neg (by simp [h1]), h4, h5]
      obtain _ | ⟨op', b⟩ := b
      · rw [if_neg (by simp)]
        exact hnext
      obtain ⟨b1, rest, hb1⟩ := exists_cons_of_length_pos op'.bytes_length_pos
      have hload : loadByte (encode a ++ valSet (v + 1) (n + 1) :: (encode (op' :: b) ++ tail))
          ((encode a).length + 1) = .ok b1 := by
        rw [encode_cons, hb1, cons_append, cons_append, loadByte_append_succ]
      rw [if_pos (by rw [encode_cons, hb1, cons_append, length_cons]; omega), hload, ok_bind]
      split_ifs with hmerge
      · -- the next opcode is a `VAL` too
        obtain ⟨v', n', rfl⟩ : ∃ v' n', op' = .val v' n' := by
          cases op' with
          | zero n' =>
            obtain ⟨-, -, h3, -⟩ := zero_macros n'
            obtain rfl : zeroSet (n' + 1) = b1 := (List.cons.inj hb1).1
            simp [h3] at hmerge
          | xzero n' =>
            obtain ⟨b0', b1', hb', -, -, h3, -⟩ := xzero_macros n'
            obtain rfl : b0' = b1 := by
              rw [Op.bytes, hb'] at hb1
              exact (List.cons.inj hb1).1
            simp [h3] at hmerge
          | val v' n' => exact ⟨v', n', rfl⟩
        obtain ⟨-, -, -, h4', h5'⟩ := val_macros v' n'
        obtain rfl : valSet (v' + 1) (n' + 1) = b1 := (List.cons.inj hb1).1
        rw [h4', h5'] at hmerge
        obtain ⟨-, hv, hlen⟩ := hmerge
        obtain rfl : v = v' := Fin.ext (by omega)
        have hn : n.val + n'.val + 1 < 4 := by
          rw [valMaxLen] at hlen
          omega
        have hbytes : (encode (.val v n' :: b)).length = (encode b).length + 1 := by
          rw [encode_cons, Op.bytes, singleton_append, length_cons]
        obtain ⟨tail', htail', hmove⟩ := merge_bytes (x := encode a) (y := encode b)
          (valSet (v + 1) (n + 1)) (valSet (v + 1) (n' + 1))
          (valSet (v + 1) (n + 1 + (n' + 1))) htail
        obtain ⟨buf1, hbuf1, hmove⟩ := bind_eq_ok.mp hmove
        obtain ⟨buf2, hbuf2, hbuf3⟩ := bind_eq_ok.mp hmove
        -- the scan goes on with the merged opcode
        obtain ⟨ops', tail'', htail'', hexpand, hrest⟩ :=
          ih a (.val v ⟨n.val + n'.val + 1, hn⟩ :: b) htail'
        refine ⟨ops', tail'', htail'', ?_, ?_⟩
        · rw [hexpand]
          simp only [expand_append, expand_cons, Op.run, Op.len, Op.value]
          rw [← append_assoc (replicate _ _), replicate_append_replicate,
            show n.val + 1 + (n'.val + 1) = n.val + n'.val + 1 + 1 by omega]
        rw [h5', encode_cons, Op.bytes, singleton_append, cons_append,
          length_cons, hbuf1, ok_bind,
          show (encode a).length + (1 + ((encode b).length + 1)) - (encode a).length =
            2 + (encode b).length by omega, hbuf2, ok_bind,
          show (encode a).length + (1 + ((encode b).length + 1)) - 1 =
            (encode a).length + 1 + (encode b).length by omega, hbuf3, ok_bind]
        rw [encode_cons, Op.bytes, singleton_append, length_cons] at hrest
        rw [← hrest, show n.val + 1 + (n'.val + 1) = n.val + n'.val + 1 + 1 by omega,
          show (encode a).length + 1 + (encode b).length =
            (encode a).length + ((encode b).length + 1) by omega]
        rfl
      · exact hnext

/-! ## Replacing an opcode -/

/-- The new sequence is put in the place of the opcode, and what follows is moved. -/
theorem substitute_eq (hseq : seq.length + 1 ≤ old.length + tail.length) : ∃ tail', tail' ≠ [] ∧
      substitute (x ++ (old ++ (y ++ tail))) (x.length + (old.length + y.length)) x.length
        old.length seq = .ok (x ++ (seq ++ (y ++ tail')), x.length + (seq.length + y.length)) := by
  -- after the move, `y` comes `seq.length` bytes after `x`
  obtain ⟨z, r, rs, hz, hmove⟩ : ∃ z r rs, z.length = seq.length ∧
      (if seq.length ≠ old.length ∧ x.length + old.length < x.length + (old.length + y.length) then
        memmove (x ++ (old ++ (y ++ tail))) (x.length + seq.length) (x.length + old.length)
          (x.length + (old.length + y.length) - (x.length + old.length))
      else .ok (x ++ (old ++ (y ++ tail)))) = .ok (x ++ (z ++ (y ++ r :: rs))) := by
    have hw : (old ++ (y ++ tail)).length = old.length + y.length + tail.length := by
      simp [add_assoc]
    have hcut : ∃ z, z.length = seq.length ∧ old ++ (y ++ tail) =
        z ++ (old ++ (y ++ tail)).drop seq.length :=
      ⟨(old ++ (y ++ tail)).take seq.length, by rw [length_take]; omega,
        (take_append_drop _ _).symm⟩
    split_ifs with hif
    · have hslice : slice (x ++ (old ++ (y ++ tail))) (x.length + old.length) y.length = y := by
        rw [← append_assoc, ← length_append, slice_append, take_left]
      obtain ⟨z, hz, hsplit⟩ := hcut
      obtain ⟨r, rs, hrs⟩ : ∃ r rs, ((old ++ (y ++ tail)).drop seq.length).drop y.length = r :: rs :=
        exists_cons_of_length_pos (by simp only [length_drop, hw]; omega)
      refine ⟨z, r, rs, hz, ?_⟩
      rw [show x.length + (old.length + y.length) - (x.length + old.length) = y.length by omega,
        memmove_eq (by rw [length_append, hw]; omega) (by rw [length_append, hw]; omega), hslice,
        hsplit, ← append_assoc, ← hz, ← length_append, overwrite_append, hz, hrs, append_assoc]
    by_cases hlen : seq.length = old.length
    · obtain ⟨r, rs, rfl⟩ := exists_cons_of_length_pos (show 0 < tail.length by omega)
      exact ⟨old, r, rs, hlen.symm, rfl⟩
    obtain rfl : y = [] := eq_nil_of_length_eq_zero (by omega)
    obtain ⟨z, hz, hsplit⟩ := hcut
    obtain ⟨r, rs, hrs⟩ : ∃ r rs, (old ++ ([] ++ tail)).drop seq.length = r :: rs :=
      exists_cons_of_length_pos (by rw [length_drop, hw]; omega)
    exact ⟨z, r, rs, hz, by rw [hsplit, hrs]; rfl⟩
  refine ⟨0 :: rs, by simp, ?_⟩
  have hend : x.length + (old.length + y.length) + seq.length - old.length =
      (x ++ (z ++ y)).length := by
    simp [hz]
    omega
  have hset : (x ++ (z ++ (y ++ r :: rs))).set (x ++ (z ++ y)).length 0 =
      x ++ (z ++ (y ++ 0 :: rs)) := by
    have hassoc : x ++ (z ++ (y ++ r :: rs)) = (x ++ (z ++ y)) ++ r :: rs := by simp
    rw [hassoc, set_append_right _ _ (Nat.le_refl _), Nat.sub_self, set_cons_zero]
    simp
  rw [substitute]
  dsimp only
  rw [hmove, ok_bind, hend, storeByte_eq (by simp), ok_bind, hset, store_eq (by simp; omega),
    ok_bind, overwrite_append, ← hz, drop_left, hz, length_append, length_append, hz]

def countOp (count : Nat) (hc : 1 ≤ count) (hc' : count ≤ 32) : Op :=
  .val ⟨count - 1, by omega⟩ 0

section

variable {count : Nat} {hc : 1 ≤ count} {hc' : count ≤ 32}

theorem bytes_countOp : (countOp count hc hc').bytes = [valSet count 1] := by
  simp [countOp, Op.bytes, Nat.sub_add_cancel hc]

theorem run_countOp : (countOp count hc hc').run = [count] := by
  simp [countOp, Op.run, Op.len, Op.value, Nat.sub_add_cancel hc]

theorem splitSeq_spec (hc : 1 ≤ count) (hc' : count ≤ 32) {run}
    {old last index size : Nat} (hrun : ∀ m, 0 < m → m ≤ last - first →
      ∃ op : Op, run m = op.bytes ∧ op.run = replicate m old ∧ op.bytes.length ≤ size)
    (hfirst : first ≤ index) (hlast : index ≤ last) :
    ∃ ops, splitSeq run first last index count = encode ops ∧
      expand ops = replicate (index - first) old ++ count :: replicate (last - index) old ∧
      (encode ops).length ≤ 2 * size + 1 := by
  have hpart : ∀ m, m ≤ last - first → ∃ ops : List Op,
      (if m ≠ 0 then run m else []) = encode ops ∧ expand ops = replicate m old ∧
      (encode ops).length ≤ size := by
    intro m hm
    by_cases hz : m = 0
    · exact ⟨[], by simp [hz], by simp [hz], Nat.zero_le _⟩
    obtain ⟨op, hbytes, hregs, hsize⟩ := hrun m (by omega) hm
    exact ⟨[op], by simp [hz, hbytes], by simpa using hregs, by simpa using hsize⟩
  obtain ⟨a, ha, haregs, hasize⟩ := hpart (index - first) (by omega)
  obtain ⟨b, hb, hbregs, hbsize⟩ := hpart (last - index) (by omega)
  have hne : (index ≠ first) = (index - first ≠ 0) := propext (by omega)
  have hne' : (index ≠ last) = (last - index ≠ 0) := propext (by omega)
  refine ⟨a ++ countOp count hc hc' :: b, ?_, ?_, ?_⟩
  · rw [encode_append, encode_cons, bytes_countOp, ← ha, ← hb, splitSeq]
    simp only [hne, hne', append_assoc]
  · rw [expand_append, expand_cons, run_countOp, haregs, hbregs, singleton_append]
  rw [encode_append, encode_cons, bytes_countOp, length_append, length_append, length_singleton]
  omega

theorem zeroSeq_spec (hm : 0 < m) (hmn : m ≤ n) (hn : n < 16384) :
    ∃ op : Op, zeroSeq m = op.bytes ∧ op.run = replicate m 0 ∧
      op.bytes.length ≤ if n < 64 then 1 else 2 := by
  have hmax : zeroMaxLen = 64 := rfl
  by_cases hgt : m > zeroMaxLen
  · refine ⟨.xzero ⟨m - 1, by omega⟩, ?_, ?_, ?_⟩
    · rw [zeroSeq, if_pos hgt, Op.bytes, Nat.sub_add_cancel hm]
    · rw [Op.run, Op.len, Op.value, Nat.sub_add_cancel hm]
    rw [if_neg (by omega)]
    exact Nat.le_refl _
  refine ⟨.zero ⟨m - 1, by omega⟩, ?_, ?_, ?_⟩
  · rw [zeroSeq, if_neg hgt, Op.bytes, Nat.sub_add_cancel hm]
  · rw [Op.run, Op.len, Op.value, Nat.sub_add_cancel hm]
  · split_ifs <;> simp [Op.bytes]

end

/-! ## Setting a register -/

/-- An HLL object in one of its encodings, with its registers. -/
def Represents (o : Hllhdr) (regs : List Nat) : Prop :=
  o.encoding = encSparse ∧ Sparse o.registers regs ∨
    o.encoding = encDense ∧ Dense (withNul o.registers) regs

section

variable {index count old : Nat}

theorem promote_spec (h : Sparse o.registers regs) (henc : o.encoding = encSparse)
    (hold : regs[index]? = some old) (hgt : count > old) (hc : count < 64) :
    ∃ o', promote o index count = .ok (o', 1) ∧ Represents o' (regs.set index count) := by
  obtain ⟨dense, -, hdense⟩ := h.toDense
  have hindex : index < numRegisters := hdense.length_regs ▸ (List.getElem?_eq_some_iff.mp hold).1
  obtain ⟨p, hset, hp⟩ := hdense.hllDenseSet hindex hold hc
  rw [max_eq_right (le_of_lt hgt)] at hp
  refine ⟨{ o with encoding := encDense, registers := p.take denseSize }, ?_,
    Or.inr ⟨rfl, by rwa [hp.take_withNul]⟩⟩
  rw [promote, hllSparseToDense_eq h henc hdense, ok_bind]
  dsimp only
  rw [if_neg (by simp), hdense.take_withNul, hset, ok_bind, decide_eq_true hgt]
  rfl

theorem set_run (a b : List Nat) (hj : j < n) (old count : Nat) :
    (a ++ (replicate n old ++ b)).set (a.length + j) count =
      a ++ (replicate j old ++ count :: replicate (n - 1 - j) old ++ b) := by
  have hsplit : replicate n old = replicate j old ++ old :: replicate (n - 1 - j) old := by
    rw [← replicate_succ, replicate_append_replicate]
    congr 1
    omega
  rw [hsplit, set_append_right _ _ (by omega), Nat.add_sub_cancel_left, append_assoc,
    set_append_right _ _ (by simp), length_replicate, Nat.sub_self, cons_append,
    set_cons_zero, append_assoc, cons_append]

theorem updated_spec {ops₁ new ops₂ prev} (henc : o.encoding = encSparse) (htail : tail ≠ [])
    (hprev : ops₁ = [] ∧ prev = none ∨ ∃ a b, ops₁ = a ++ b ∧ prev = some (encode a).length)
    (hregs : expand (ops₁ ++ (new ++ ops₂)) = regs) (hlen : regs.length = numRegisters) :
    ∃ o', updated o prev (encode ops₁ ++ (encode new ++ (encode ops₂ ++ tail)))
        ((encode ops₁).length + ((encode new).length + (encode ops₂).length)) = .ok (o', 1) ∧
      Represents o' regs := by
  obtain ⟨a, b, rfl, hp⟩ : ∃ a b, ops₁ = a ++ b ∧ prev.getD 0 = (encode a).length := by
    rcases hprev with ⟨rfl, rfl⟩ | ⟨a, b, rfl, rfl⟩
    · exact ⟨[], [], rfl, rfl⟩
    · exact ⟨a, b, rfl, rfl⟩
  obtain ⟨ops', tail', -, hexp, hmerge⟩ := mergeLoop_spec 5 a (b ++ (new ++ ops₂)) htail
  simp only [encode_append, append_assoc, length_append, add_assoc] at hmerge ⊢
  refine ⟨{ o with card := invalidateCache o.card, registers := encode ops' }, ?_,
    Or.inl ⟨henc, ops', rfl, ?_, hlen⟩⟩
  · rw [updated, hp, hmerge, ok_bind]
    dsimp only
    rw [take_left]
  · rw [hexp, ← hregs, append_assoc]

/-- What `updateOp` does with the opcode that covers the register. -/
structure Covers (o : Hllhdr) (regs : List Nat) (index old : Nat) (ops₁ : List Op) (op : Op)
    (ops₂ : List Op) (prev : Option Nat) : Prop where
  sparse : o.encoding = encSparse
  bytes : o.registers = encode (ops₁ ++ op :: ops₂)
  regs_eq : expand (ops₁ ++ op :: ops₂) = regs
  length_eq : regs.length = numRegisters
  first_le : (expand ops₁).length ≤ index
  lt_last : index < (expand ops₁).length + op.len
  prev_eq : ops₁ = [] ∧ prev = none ∨ ∃ a b, ops₁ = a ++ b ∧ prev = some (encode a).length
  old_eq : regs[index]? = some old

namespace Covers

variable {ops₁ ops₂ new : List Op} {prev : Option Nat} {room : List UInt8}

section

variable (h : Covers o regs index old ops₁ op ops₂ prev)
include h

theorem value_eq : op.value = old := by
  have hold := h.old_eq
  have hrun : op.run.length = op.len := length_replicate
  have := h.lt_last
  have := h.first_le
  rw [← h.regs_eq, expand_append, expand_cons, getElem?_append_right h.first_le,
    getElem?_append_left (by omega), Op.run, getElem?_replicate, if_pos (by omega)] at hold
  exact Option.some.inj hold

theorem expand_eq (hnew : expand new = replicate (index - (expand ops₁).length) old ++ count ::
      replicate ((expand ops₁).length + op.len - 1 - index) old) :
    expand (ops₁ ++ (new ++ ops₂)) = regs.set index count := by
  have hle := h.first_le
  have hlt := h.lt_last
  have hset := set_run (expand ops₁) (expand ops₂)
    (show index - (expand ops₁).length < op.len by omega) op.value count
  rw [Nat.add_sub_cancel' hle, show op.len - 1 - (index - (expand ops₁).length) =
    (expand ops₁).length + op.len - 1 - index by omega] at hset
  rw [← h.regs_eq, expand_append, expand_append, expand_append, expand_cons, hnew, Op.run, hset,
    h.value_eq]

/-- Step 3 and what follows: the opcode is replaced, or the HLL is promoted where the string gets
too long. -/
theorem replace (sparseMaxBytes : Nat)
    (hroom : 3 ≤ room.length) (hgt : count > old) (hc : count < 64)
    (hsize : (encode new).length ≤ 2 * op.bytes.length + 1)
    (hnew : expand new = replicate (index - (expand ops₁).length) old ++ count ::
      replicate ((expand ops₁).length + op.len - 1 - index) old) :
    ∃ o', (if (encode new).length > op.bytes.length ∧ hdrSize +
          (encode (ops₁ ++ op :: ops₂)).length + (encode new).length - op.bytes.length >
            sparseMaxBytes then promote o index count
        else do
          let (buf, endp) ← substitute (encode ops₁ ++ (op.bytes ++ (encode ops₂ ++ 0 :: room)))
            (encode (ops₁ ++ op :: ops₂)).length (encode ops₁).length op.bytes.length (encode new)
          updated o prev buf endp) = .ok (o', 1) ∧
      Represents o' (regs.set index count) := by
  split_ifs with hbig
  · exact promote_spec ⟨_, h.bytes, h.regs_eq, h.length_eq⟩ h.sparse h.old_eq hgt hc
  have hbytes : op.bytes.length ≤ 2 := by cases op <;> simp [Op.bytes, xzeroSet]
  have hseq : (encode new).length + 1 ≤ op.bytes.length + (0 :: room).length := by
    rw [length_cons]
    omega
  obtain ⟨tail, htail, hsub⟩ := substitute_eq (x := encode ops₁) (y := encode ops₂) hseq
  obtain ⟨o', hupdated, ho'⟩ := updated_spec h.sparse htail h.prev_eq (h.expand_eq hnew)
    (by rw [length_set, h.length_eq])
  refine ⟨o', ?_, ho'⟩
  rw [encode_append, encode_cons, length_append, length_append, hsub, ok_bind]
  exact hupdated

theorem overwrite (hc : 1 ≤ count)
    (hc' : count ≤ 32) (hone : op.len = 1) (hbyte : op.bytes.length = 1) :
    ∃ o', (do
          let buf ← storeByte (encode ops₁ ++ (op.bytes ++ (encode ops₂ ++ 0 :: room)))
            (encode ops₁).length (valSet count 1)
          updated o prev buf (encode (ops₁ ++ op :: ops₂)).length) = .ok (o', 1) ∧
      Represents o' (regs.set index count) := by
  obtain ⟨b, hb⟩ := length_eq_one_iff.mp hbyte
  have hlt := h.lt_last
  have hle := h.first_le
  have hstore : storeByte (encode ops₁ ++ (op.bytes ++ (encode ops₂ ++ 0 :: room)))
      (encode ops₁).length (valSet count 1) =
      .ok (encode ops₁ ++ (encode [countOp count hc hc'] ++ (encode ops₂ ++ 0 :: room))) := by
    rw [hb, storeByte_eq (by simp), set_append_right _ _ (Nat.le_refl _), Nat.sub_self,
      encode_cons, bytes_countOp]
    rfl
  have hnew : expand [countOp count hc hc'] =
      replicate (index - (expand ops₁).length) old ++ count ::
        replicate ((expand ops₁).length + op.len - 1 - index) old := by
    rw [expand_cons, run_countOp, expand_nil, show index - (expand ops₁).length = 0 by omega,
      show (expand ops₁).length + op.len - 1 - index = 0 by omega]
    rfl
  have hlen : (encode (ops₁ ++ op :: ops₂)).length =
      (encode ops₁).length + ((encode [countOp count hc hc']).length + (encode ops₂).length) := by
    rw [encode_append, encode_cons, length_append, length_append, hbyte, encode_cons, bytes_countOp]
    rfl
  obtain ⟨o', hupdated, ho'⟩ := updated_spec h.sparse (cons_ne_nil 0 room) h.prev_eq
    (h.expand_eq hnew) (by rw [length_set, h.length_eq])
  refine ⟨o', ?_, ho'⟩
  rw [hstore, ok_bind, hlen]
  exact hupdated

theorem updateOp_zero (sparseMaxBytes : Nat)
    (hroom : 3 ≤ room.length) (hc : 1 ≤ count) (hc' : count ≤ 32) (hzero : op.value = 0)
    (hb : (isZero b = true ∧ isXzero b = false ∧ op.bytes.length = 1 ∧ op.len ≤ 64) ∨
      (isZero b = false ∧ isXzero b = true ∧ op.bytes.length = 2)) (hlen : op.len ≤ 16384) :
    ∃ o', updateOp sparseMaxBytes o index count
        (encode ops₁ ++ (op.bytes ++ (encode ops₂ ++ 0 :: room)))
        (encode (ops₁ ++ op :: ops₂)).length (encode ops₁).length prev (expand ops₁).length op.len b
        op.len = .ok (o', 1) ∧ Represents o' (regs.set index count) := by
  have hold : old = 0 := h.value_eq.symm.trans hzero
  have hgt : count > old := by omega
  have hle := h.first_le
  have hlt := h.lt_last
  obtain ⟨new, hseq, hnew, hsize⟩ : ∃ new,
      splitSeq zeroSeq (expand ops₁).length ((expand ops₁).length + op.len - 1) index count =
        encode new ∧
      expand new = replicate (index - (expand ops₁).length) 0 ++ count ::
        replicate ((expand ops₁).length + op.len - 1 - index) 0 ∧
      (encode new).length ≤ 2 * op.bytes.length + 1 := by
    refine splitSeq_spec hc hc' (fun m hm hmn => ?_) hle (by omega)
    obtain ⟨op', h1, h2, h3⟩ := zeroSeq_spec hm hmn (by omega)
    refine ⟨op', h1, h2, le_trans h3 ?_⟩
    rcases hb with ⟨-, -, hbytes, hsmall⟩ | ⟨-, -, hbytes⟩
    · rw [if_pos (by omega), hbytes]
    rw [hbytes]
    split_ifs <;> omega
  have hreplace := h.replace sparseMaxBytes hroom hgt (by omega) hsize (hold ▸ hnew)
  unfold updateOp
  rcases hb with ⟨h1, h2, hbytes, -⟩ | ⟨h1, h2, hbytes⟩
  · simp only [h1, h2, hseq, Bool.not_true, Bool.not_false, Bool.false_eq_true, false_and, if_false,
      true_and, true_or, if_true]
    rw [hbytes] at hreplace
    split
    · rename_i hone
      exact h.overwrite hc hc' hone hbytes
    · exact hreplace
  simp only [h1, h2, hseq, Bool.not_true, Bool.not_false, Bool.false_eq_true, false_and,
    and_false, if_false, or_true, if_true]
  rw [hbytes] at hreplace
  exact hreplace

end

theorem updateOp_val (h : Covers o regs index old ops₁ (.val v n) ops₂ prev) (sparseMaxBytes : Nat)
    (hroom : 3 ≤ room.length) (hc : 1 ≤ count) (hc' : count ≤ 32) :
    ∃ o', updateOp sparseMaxBytes o index count
        (encode ops₁ ++ ((Op.val v n).bytes ++ (encode ops₂ ++ 0 :: room)))
        (encode (ops₁ ++ .val v n :: ops₂)).length (encode ops₁).length prev (expand ops₁).length
        (Op.val v n).len (valSet (v + 1) (n + 1)) (Op.val v n).len =
          .ok (o', if count > old then 1 else 0) ∧
      Represents o' (regs.set index (max old count)) := by
  obtain ⟨h1, h2, -, h4, -⟩ := val_macros v n
  have hold : v.val + 1 = old := h.value_eq
  have hle := h.first_le
  have hlt := h.lt_last
  unfold updateOp
  by_cases hgt : count > old
  · rw [if_pos hgt, max_eq_right (le_of_lt hgt)]
    obtain ⟨new, hseq, hnew, hsize⟩ : ∃ new,
        splitSeq (fun len => [valSet (v + 1) len]) (expand ops₁).length
          ((expand ops₁).length + (Op.val v n).len - 1) index count = encode new ∧
        expand new = replicate (index - (expand ops₁).length) old ++ count ::
          replicate ((expand ops₁).length + (Op.val v n).len - 1 - index) old ∧
        (encode new).length ≤ 2 * (Op.val v n).bytes.length + 1 := by
      refine splitSeq_spec hc hc' (fun m hm hmn => ⟨.val v ⟨m - 1, ?_⟩, ?_, ?_, ?_⟩) hle (by omega)
      · have := n.isLt
        simp only [Op.len] at hmn
        omega
      · rw [Op.bytes, Nat.sub_add_cancel hm]
      · rw [Op.run, Op.len, Op.value, Nat.sub_add_cancel hm, hold]
      · exact Nat.le_refl _
    have hreplace := h.replace sparseMaxBytes hroom hgt (by omega) hsize hnew
    have hnle : ¬ count ≤ v.val + 1 := by omega
    simp only [h1, h2, h4, hseq, Bool.not_false, true_and, ge_iff_le, hnle, if_false,
      Bool.false_eq_true, or_self]
    split
    · rename_i hone
      exact h.overwrite hc hc' hone rfl
    · exact hreplace
  refine ⟨o, ?_, Or.inl ⟨h.sparse, _, h.bytes, ?_, ?_⟩⟩
  · have hle : count ≤ v.val + 1 := by omega
    simp [h1, h2, h4, hle, if_neg hgt]
  · obtain ⟨hlt, rfl⟩ := List.getElem?_eq_some_iff.mp h.old_eq
    rw [Nat.max_eq_left (Nat.le_of_not_lt hgt), set_getElem_self, h.regs_eq]
  · rw [length_set, h.length_eq]

end Covers

theorem hllSparseSet_spec (sparseMaxBytes : Nat) (h : Sparse o.registers regs)
    (henc : o.encoding = encSparse) (hroom : 3 ≤ room.length) (hold : regs[index]? = some old)
    (hc : 1 ≤ count) (hc' : count < 64) : ∃ o', hllSparseSet sparseMaxBytes room o index count =
        .ok (o', if count > old then 1 else 0) ∧
      Represents o' (regs.set index (max old count)) := by
  have hsparse := h
  obtain ⟨ops, hbytes, hexp, hlen⟩ := h
  have hindex : index < (expand ops).length := hexp ▸ (List.getElem?_eq_some_iff.mp hold).1
  obtain ⟨ops₁, op, ops₂, rfl, hle, hlt⟩ := exists_cover hindex
  obtain ⟨prev, hlocate, hprev⟩ : ∃ prev', locate ([] ++ (encode (ops₁ ++ op :: ops₂) ++ (0 :: room)))
        (([] : List UInt8).length + (encode (ops₁ ++ op :: ops₂)).length) index
        (encode (ops₁ ++ op :: ops₂)).length ([] : List UInt8).length none 0 0 =
        .ok (([] : List UInt8).length + (encode ops₁).length, prev', 0 + (expand ops₁).length,
          op.len) ∧
      (ops₁ = [] ∧ prev' = none ∨
        ∃ a b, ops₁ = a ++ b ∧ prev' = some (([] : List UInt8).length + (encode a).length)) :=
    locate_eq (by omega) (by omega) (Nat.le_refl _)
  simp only [nil_append, length_nil, Nat.zero_add] at hlocate hprev
  have hcovers : Covers o regs index old ops₁ op ops₂ prev :=
    ⟨henc, hbytes, hexp, hlen, hle, hlt, hprev, hold⟩
  unfold hllSparseSet
  by_cases hbig : count > valMaxValue
  · -- a value of the sparse encoding is at most 32
    have hgt : count > old := by
      have := hcovers.value_eq
      have hv : op.value ≤ valMaxValue := by
        cases op with
        | zero n => exact Nat.zero_le _
        | xzero n => exact Nat.zero_le _
        | val v n => exact v.isLt
      omega
    rw [if_pos hbig, if_pos hgt, max_eq_right (le_of_lt hgt)]
    exact promote_spec hsparse henc hold hgt hc'
  have hsmall : count ≤ 32 := by
    rw [valMaxValue] at hbig
    omega
  have hbuf : withNul o.registers ++ room = encode (ops₁ ++ op :: ops₂) ++ 0 :: room := by
    rw [hbytes, withNul, append_assoc, singleton_append]
  have hassoc : encode (ops₁ ++ op :: ops₂) ++ 0 :: room =
      encode ops₁ ++ (op.bytes ++ (encode ops₂ ++ 0 :: room)) := by
    rw [encode_append, encode_cons, append_assoc, append_assoc]
  rw [if_neg hbig]
  dsimp only
  rw [hbuf, hbytes, hlocate, ok_bind]
  rw [if_neg (ne_of_gt op.len_pos), hassoc]
  have hzero : op.value = 0 → count > old := fun hv => by
    have := hcovers.value_eq
    omega
  cases op with
  | zero n =>
    obtain ⟨h1, h2, -, h4⟩ := zero_macros n
    have hgt := hzero rfl
    obtain ⟨o', hupdate, ho'⟩ := hcovers.updateOp_zero sparseMaxBytes hroom hc (by omega) rfl
      (Or.inl ⟨h1, h2, rfl, n.isLt⟩) (le_trans n.isLt (by omega))
    rw [if_pos hgt, max_eq_right (le_of_lt hgt)]
    refine ⟨o', ?_, ho'⟩
    simp only [Op.bytes, singleton_append] at hupdate ⊢
    rw [loadByte_append, ok_bind, if_pos h1, ok_bind, h4]
    exact hupdate
  | xzero n =>
    obtain ⟨b0, b1, hb, h1, h2, -, h4⟩ := xzero_macros n
    have hgt := hzero rfl
    obtain ⟨o', hupdate, ho'⟩ := hcovers.updateOp_zero sparseMaxBytes hroom hc (by omega) rfl
      (Or.inr ⟨h1, h2, rfl⟩) n.isLt
    rw [if_pos hgt, max_eq_right (le_of_lt hgt)]
    refine ⟨o', ?_, ho'⟩
    simp only [Op.bytes, hb, cons_append, nil_append] at hupdate ⊢
    rw [loadByte_append, ok_bind, if_neg (by simp [h1]), if_pos h2, loadByte_append_succ, ok_bind,
      ok_bind, h4]
    exact hupdate
  | val v n =>
    obtain ⟨h1, h2, -, -, h5⟩ := val_macros v n
    obtain ⟨o', hupdate, ho'⟩ := hcovers.updateOp_val sparseMaxBytes hroom hc (by omega)
    refine ⟨o', ?_, ho'⟩
    simp only [Op.bytes, singleton_append] at hupdate ⊢
    rw [loadByte_append, ok_bind, if_neg (by simp [h1]), if_neg (by simp [h2]), ok_bind, h5]
    exact hupdate

end

/-! ## The encodings represent the same registers -/

namespace Represents

variable {o : Hllhdr} {regs : List Nat}

variable (h : Represents o regs)
include h

theorem exists_dense : ∃ dense, Dense (withNul dense) regs := by
  obtain ⟨-, hs⟩ | ⟨-, hd⟩ := h
  · obtain ⟨p, -, hp⟩ := hs.toDense
    exact ⟨p.take denseSize, by rwa [hp.take_withNul]⟩
  · exact ⟨_, hd⟩

theorem hllSparseToDense
    (hd : Dense (withNul dense) regs) : hllSparseToDense o = .ok
      ({ o with encoding := encDense, registers := dense }, true) := by
  have htake : (withNul dense).take denseSize = dense := by
    have hlen := hd.length_eq
    rw [withNul, length_append, length_singleton] at hlen
    rw [withNul, take_left' (Nat.succ.inj hlen)]
  obtain ⟨henc, hs⟩ | ⟨henc, hd'⟩ := h
  · rw [hllSparseToDense_eq hs henc hd, htake]
  have heq : o.registers = dense := append_cancel_right (hd'.unique hd)
  rw [Hll.hllSparseToDense, if_pos henc, ← henc, ← heq]

theorem hllMerge {max} (hmax : max.length = numRegisters) :
    hllMerge max o = .ok (zipWith raised max regs, true) := by
  obtain ⟨henc, hs⟩ | ⟨henc, hd⟩ := h
  · exact hllMerge_sparse hs henc hmax
  · exact hllMerge_dense hd henc hmax

theorem hllRawSum : hllRawSum (regs.map UInt8.ofNat) = .ok (registerSum regs, regs.count 0) := by
  obtain ⟨dense, hd⟩ := h.exists_dense
  refine hllRawSum_eq hd.length_regs fun r hr => ?_
  obtain ⟨i, hi, rfl⟩ := mem_iff_getElem.mp hr
  have hget := hd.get i (hd.length_regs ▸ hi)
  rw [getElem?_eq_getElem hi, Option.some_inj] at hget
  exact hget ▸ register_lt

end Represents

/-- In a sparse HLL `hllSparseSet` raises one register to the maximum of the old and the new value,
and returns 1 when that changes the registers; the result is sparse or dense. What
`hllSparseToDense` writes, what `hllMerge` does and what the three sums are depends on the registers
only, not on the encoding or on the opcodes. -/
theorem hll_encodings_agree {o : Hllhdr} {regs : List Nat} (h : Represents o regs) :
    (o.encoding = encSparse → ∀ index count sparseMaxBytes room, index < numRegisters →
      1 ≤ count → count ≤ 51 → 3 ≤ room.length →
      ∃ o' r, hllSparseSet sparseMaxBytes room o index count = .ok (o', r) ∧
        Represents o' (regs.set index (max (regs.getD index 0) count)) ∧ (r = 0 ∨ r = 1) ∧
        (r = 1 ↔ regs.set index (max (regs.getD index 0) count) ≠ regs)) ∧
    (∃ dense, Dense (withNul dense) regs ∧ ∀ o', Represents o' regs →
      hllSparseToDense o' = .ok ({ o' with encoding := encDense, registers := dense }, true)) ∧
    (∀ max, max.length = numRegisters → hllMerge max o = .ok (List.zipWith raised max regs, true)) ∧
    (o.encoding = encSparse →
      hllSparseSum o.registers = .ok (registerSum regs, regs.count 0, false)) ∧
    (o.encoding = encDense →
      hllDenseSum (withNul o.registers) = .ok (registerSum regs, regs.count 0)) ∧
    hllRawSum (regs.map UInt8.ofNat) = .ok (registerSum regs, regs.count 0) := by
  refine ⟨fun henc index count sparseMaxBytes room hindex hc hc' hroom => ?_, ?_,
    fun max hmax => h.hllMerge hmax, fun henc => ?_, fun henc => ?_, h.hllRawSum⟩
  · obtain ⟨-, hs⟩ | ⟨hdense, -⟩ := h
    · have hlt : index < regs.length := by
        obtain ⟨_, _, _, hlen⟩ := hs
        rwa [hlen]
      have hold : regs[index]? = some (regs.getD index 0) := by
        rw [getD_eq_getElem?_getD, getElem?_eq_getElem hlt, Option.getD_some]
      obtain ⟨o', hset, ho'⟩ :=
        hllSparseSet_spec sparseMaxBytes hs henc hroom hold hc (lt_of_le_of_lt hc' (by decide))
      refine ⟨o', _, hset, ho', ?_, ?_⟩
      · split
        · exact Or.inr rfl
        · exact Or.inl rfl
      have hsame : regs.set index (max (regs.getD index 0) count) = regs ↔
          max (regs.getD index 0) count = regs.getD index 0 := by
        constructor
        · intro heq
          have hget : (regs.set index (max (regs.getD index 0) count))[index]? = regs[index]? := by
            rw [heq]
          rw [getElem?_set_self hlt, hold] at hget
          exact Option.some.inj hget
        intro heq
        rw [heq, getD_eq_getElem?_getD, getElem?_eq_getElem hlt, Option.getD_some, set_getElem_self]
      rw [ne_eq, hsame]
      split <;> omega
    · exact absurd (henc.symm.trans hdense) (by decide)
  · obtain ⟨dense, hd⟩ := h.exists_dense
    exact ⟨dense, hd, fun o' ho' => ho'.hllSparseToDense hd⟩
  · obtain ⟨-, hs⟩ | ⟨hdense, -⟩ := h
    · exact hllSparseSum_eq hs
    · exact absurd (henc.symm.trans hdense) (by decide)
  obtain ⟨hsparse, -⟩ | ⟨-, hd⟩ := h
  · exact absurd (henc.symm.trans hsparse) (by decide)
  · exact hd.hllDenseSum

/-- The HLL of `createHLLObject`: one `XZERO` opcode for all registers. -/
def emptyHll : Hllhdr where
  magic := [0x48, 0x59, 0x4c, 0x4c]
  encoding := encSparse
  notused := [0, 0, 0]
  card := List.replicate 8 0
  registers := [0x7f, 0xff]

theorem emptyHll_represents : Represents emptyHll (replicate numRegisters 0) :=
  Or.inl ⟨rfl, [.xzero ⟨16383, by decide⟩], by decide, append_nil _, length_replicate⟩

theorem hll_encodings_agree_emptyHll :
    hllSparseSum emptyHll.registers = .ok (registerSum (List.replicate numRegisters 0),
      (List.replicate numRegisters 0).count 0, false) ∧
    ∃ o' r, hllSparseSet 3000 [0, 0, 0] emptyHll 100 7 = .ok (o', r) ∧
      Represents o' ((List.replicate numRegisters 0).set 100
        (max ((List.replicate numRegisters 0).getD 100 0) 7)) ∧ (r = 0 ∨ r = 1) ∧
      (r = 1 ↔ (List.replicate numRegisters 0).set 100
        (max ((List.replicate numRegisters 0).getD 100 0) 7) ≠ List.replicate numRegisters 0) :=
  ⟨(hll_encodings_agree emptyHll_represents).2.2.2.1 rfl,
    (hll_encodings_agree emptyHll_represents).1 rfl 100 7 3000 [0, 0, 0] (by decide) (by decide)
      (by decide) (by decide)⟩

/-! ## Strings that are no HLL -/

/-- The bytes are opcodes for exactly all registers. -/
def Covered (bytes : List UInt8) : Prop := ∃ regs, Sparse bytes regs

/-- The loops over the opcodes do not read the NUL behind the bytes. -/
def ReadsInside (bytes : List UInt8) : Prop :=
  ∀ {σ : Type} (onZero : Nat → σ → σ) onVal s,
    sparseLoop onZero onVal bytes bytes.length bytes.length 0 s =
      sparseLoop onZero onVal (withNul bytes) bytes.length bytes.length 0 s

theorem zero_or_val_byte (k : Fin 256) : isXzero (UInt8.ofNat k) = true ∨
    [UInt8.ofNat k] = (Op.zero (Fin.ofNat 64 k)).bytes ∨
    [UInt8.ofNat k] = (Op.val (Fin.ofNat 32 (k / 4)) (Fin.ofNat 4 k)).bytes := by
  revert k
  decide +kernel

theorem xzero_bytes (b b1 : UInt8) (h : isXzero b = true) : ∃ n, [b, b1] = (Op.xzero n).bytes := by
  have hb : ∀ k : Fin 256, isXzero (UInt8.ofNat k) = true →
      UInt8.ofNat k = UInt8.ofNat ((Fin.ofNat 64 k : Fin 64) ||| 0x40 : Nat) := by
    decide +kernel
  have hm := hb ⟨b.toNat, b.toNat_lt⟩ (by simpa using h)
  generalize (Fin.ofNat 64 b.toNat : Fin 64) = m at hm
  have hb1 := b1.toNat_lt
  have hn : m.val * 256 + b1.toNat < 16384 := by omega
  refine ⟨⟨_, hn⟩, ?_⟩
  have hhigh : (m.val * 256 + b1.toNat) >>> 8 = m := by
    rw [Nat.shiftRight_eq_div_pow]
    omega
  have hlow : (m.val * 256 + b1.toNat) &&& 0xff = b1.toNat := by
    rw [Nat.and_two_pow_sub_one_eq_mod _ 8]
    omega
  simpa [Op.bytes, xzeroSet, hhigh, hlow] using hm

/-- Every string is a sequence of opcodes, or ends within an `XZERO`. -/
theorem complete_or_cut : ∀ bytes, ∃ ops, bytes = encode ops ∨
    ∃ b, isXzero b = true ∧ bytes = encode ops ++ [b]
  | [] => ⟨[], .inl rfl⟩
  | b :: bytes => by
    have hcons {op : Op} {rest} (hop : b :: bytes = op.bytes ++ rest) (ih : ∃ ops, rest = encode ops ∨
        ∃ b, isXzero b = true ∧ rest = encode ops ++ [b]) :
        ∃ ops, b :: bytes = encode ops ∨ ∃ b', isXzero b' = true ∧ b :: bytes = encode ops ++ [b'] := by
      obtain ⟨ops, h⟩ := ih
      refine ⟨op :: ops, ?_⟩
      rw [hop, encode_cons]
      simpa using h
    have hb := zero_or_val_byte ⟨b.toNat, b.toNat_lt⟩
    rw [UInt8.ofNat_toNat] at hb
    rcases hb with hb | hb | hb
    · obtain _ | ⟨b1, bytes⟩ := bytes
      · exact ⟨[], .inr ⟨b, hb, rfl⟩⟩
      obtain ⟨n, hn⟩ := xzero_bytes b b1 hb
      exact hcons (by rw [← hn]; rfl) (complete_or_cut bytes)
    · exact hcons (by rw [← hb]; rfl) (complete_or_cut bytes)
    · exact hcons (by rw [← hb]; rfl) (complete_or_cut bytes)

theorem readsInside_iff {bytes : List UInt8} : ReadsInside bytes ↔ ∃ ops, bytes = encode ops := by
  constructor
  · intro h
    obtain ⟨ops, rfl | ⟨b, hb, rfl⟩⟩ := complete_or_cut bytes
    · exact ⟨ops, rfl⟩
    -- the second byte of the opcode is not there
    exfalso
    have h := h (σ := Unit) (fun _ s => s) (fun _ _ s => .ok s) ()
    have hzero : isZero b = false := by
      rw [isXzero, decide_eq_true_eq] at hb
      simp [isZero, hb]
    have hfold : ops.foldlM (applyOp (fun _ s => s) fun _ _ s => .ok s) () = .ok () := by
      clear * -
      induction ops with
      | nil => rfl
      | cons op ops ih => cases op <;> exact ih
    have hlen := length_le_encode ops
    obtain ⟨fuel, hfuel⟩ : ∃ fuel, (encode ops ++ [b]).length = fuel + 1 + ops.length :=
      ⟨(encode ops).length - ops.length, by simp; omega⟩
    have hloop (post : List UInt8) := sparseLoop_ops (fun _ s => s) (fun _ _ s => .ok s)
      (encode ops ++ [b]).length (fuel + 1) [] ([b] ++ post) ops () (by simp)
    simp only [nil_append, length_nil, Nat.zero_add, hfold, ok_bind] at hloop
    rw [← hfuel] at hloop
    have h0 := hloop []
    have h1 := hloop [0]
    rw [append_nil] at h0
    rw [← append_assoc] at h1
    rw [withNul, h0, h1] at h
    simp [sparseLoop, loadByte, hb, hzero] at h
    rw [sparseLoop_end _ _ (by omega)] at h
    cases h
  · rintro ⟨ops, rfl⟩ σ onZero onVal s
    have hloop := sparseLoop_eq onZero onVal [] [] ops s (length_le_encode ops)
    rw [sparseLoop_encode, ← hloop]
    simp

/-- A step at a register, in a buffer of `size` bytes. It fails where there is no register. -/
structure Touches (step : Nat → List UInt8 → Nat → Except Fault (List UInt8)) (size : Nat) : Prop where
  inside : ∀ v p i, p.length = size → i < numRegisters →
    ∃ p', step v p i = .ok p' ∧ p'.length = size
  outside : ∀ v p i p', p.length = size → step v p i = .ok p' → i < numRegisters

theorem touches_denseSetRegister : Touches (fun v p i => denseSetRegister p i v) (denseSize + 1) := by
  refine ⟨fun v p i hp hi => ?_, fun v p i p' hp h => ?_⟩
  · have hbyte : i * hllBits / 8 + 1 < p.length := by
      rw [hp, denseSize, numRegisters, hllBits] at *
      omega
    have hbyte' := Nat.lt_of_succ_lt hbyte
    rw [← hp]
    simp [denseSetRegister, loadByte, storeByte, hbyte, hbyte']
  · by_contra hi
    have hbyte : p.length ≤ i * hllBits / 8 + 1 := by
      rw [hp, denseSize, numRegisters, hllBits] at *
      omega
    simp [denseSetRegister, loadByte, storeByte, bind_eq_ok] at h
    grind

theorem touches_raise : Touches (fun v max i => raise max i v) numRegisters := by
  refine ⟨fun v p i hp hi => ?_, fun v p i p' hp h => ?_⟩
  · have hi' : i < p.length := hp ▸ hi
    rw [raise, loadByte_eq (getElem?_eq_getElem hi'), ok_bind, storeByte_eq hi']
    split
    · exact ⟨_, rfl, by simpa using hp⟩
    · exact ⟨p, rfl, hp⟩
  · obtain ⟨b, hb, -⟩ := bind_eq_ok.mp h
    rw [loadByte] at hb
    split at hb
    next hb' => exact hp ▸ (List.getElem?_eq_some_iff.mp hb').1
    next => cases hb

/-- The registers are handled without a fault iff those from `numRegisters` on are zero. -/
theorem Touches.foldlM_eq {step} {size : Nat} (h : Touches step size) (regs : List Nat) (i : Nat)
    (hp : p.length = size) :
    ((∀ v ∈ regs.drop (numRegisters - i), v = 0) →
      ∃ p', regs.foldlM (overRegs step) (i, p) = .ok (i + regs.length, p')) ∧
    ∀ s, regs.foldlM (overRegs step) (i, p) = .ok s → ∀ v ∈ regs.drop (numRegisters - i), v = 0 := by
  induction regs generalizing i p with
  | nil => exact ⟨fun _ => ⟨p, rfl⟩, fun _ _ v hv => by simp at hv⟩
  | cons u regs ih =>
    have hdrop : (∀ v ∈ (u :: regs).drop (numRegisters - i), v = 0) ↔
        (numRegisters ≤ i → u = 0) ∧ ∀ v ∈ regs.drop (numRegisters - (i + 1)), v = 0 := by
      rcases hi : numRegisters - i with _ | m
      · rw [show numRegisters - (i + 1) = 0 by omega, drop_zero, drop_zero, forall_mem_cons]
        exact and_congr_left fun _ => ⟨fun hu _ => hu, fun hu => hu (by omega)⟩
      · rw [show numRegisters - (i + 1) = m by omega, drop_succ_cons]
        exact (and_iff_right fun hle => by omega).symm
    rw [hdrop, foldlM_cons, overRegs, length_cons, add_comm regs.length, ← add_assoc]
    by_cases hu : u = 0
    · rw [if_pos hu, ok_bind, ok_bind]
      exact ⟨fun hv => (ih _ hp).1 hv.2, fun s hs => ⟨fun _ => hu, (ih _ hp).2 s hs⟩⟩
    rw [if_neg hu]
    refine ⟨fun hv => ?_, fun s hs => ?_⟩
    · obtain ⟨p1, hp1, hsize⟩ := h.inside u p i hp (by_contra fun hi => hu (hv.1 (by omega)))
      rw [hp1, ok_bind, ok_bind]
      exact (ih _ hsize).1 hv.2
    obtain ⟨s1, hs1, hs⟩ := bind_eq_ok.mp hs
    obtain ⟨p1, hp1, heq⟩ := bind_eq_ok.mp hs1
    cases heq
    have hi := h.outside u p i p1 hp hp1
    obtain ⟨p2, hp2, hsize⟩ := h.inside u p i hp hi
    obtain rfl : p1 = p2 := Except.ok.inj (hp1.symm.trans hp2)
    exact ⟨fun hle => by omega, (ih _ hsize).2 s hs⟩

/-- Nothing is read behind the end, all registers that are touched are there, and an error is reported
iff the opcodes do not cover exactly all registers. -/
def Detects {α : Type} (bytes : List UInt8) (run : Except Fault (α × Bool)) : Prop :=
  ReadsInside bytes ∧ ∃ x ok, run = .ok (x, ok) ∧ (ok = true ↔ Covered bytes)

/-- The same for `hllSparseSet`, which returns -1 for an error. -/
def SetDetects (o : Hllhdr) : Prop :=
  ∀ index count sparseMaxBytes room, index < numRegisters → 1 ≤ count → count ≤ 51 →
    3 ≤ room.length →
    (∃ p prev first span, locate o.registers o.registers.length index o.registers.length 0 none 0 0 =
      .ok (p, prev, first, span) ∧ (span = 0 ∨ p < o.registers.length)) ∧
    ∃ o' r, hllSparseSet sparseMaxBytes room o index count = .ok (o', r) ∧
      (r = -1 ↔ ¬ Covered o.registers)

/-- The opcodes are complete, and no value is one of a register behind the last. -/
def ValuesFit (bytes : List UInt8) : Prop :=
  ∃ ops, bytes = encode ops ∧ ∀ v ∈ (expand ops).drop numRegisters, v = 0

/-- A function whose loop over the opcodes is `run` for a `VAL` opcode detects what is wrong iff the
values fit. -/
theorem detects_iff {α : Type} {run step} {size : Nat} (hzero : ∀ v s, run v 0 s = .ok s)
    (hsucc : ∀ v n i p, run v (n + 1) (i, p) = step v p i >>= fun p => run v n (i + 1, p))
    (h : Touches step size) (hp : p.length = size) {bytes : List UInt8}
    {f : Except Fault (α × Bool)} (x : Nat × List UInt8 → α)
    (hf : f = sparseLoop (fun runlen s => (s.1 + runlen, s.2)) run (withNul bytes) bytes.length
      bytes.length 0 (0, p) >>= fun s => .ok (x s, decide (s.1 = numRegisters))) :
    Detects bytes f ↔ ValuesFit bytes := by
  constructor
  · rintro ⟨hreads, y, ok, hrun, -⟩
    obtain ⟨ops, rfl⟩ := readsInside_iff.mp hreads
    rw [hf, sparseLoop_encode, foldlM_applyOp hzero hsucc] at hrun
    obtain ⟨s, hs, -⟩ := bind_eq_ok.mp hrun
    exact ⟨ops, rfl, (h.foldlM_eq _ 0 hp).2 s hs⟩
  rintro ⟨ops, rfl, hv⟩
  obtain ⟨p', hloop⟩ := (h.foldlM_eq _ 0 hp).1 hv
  rw [← foldlM_applyOp hzero hsucc, ← sparseLoop_encode, Nat.zero_add] at hloop
  rw [hloop, ok_bind] at hf
  refine ⟨readsInside_iff.mpr ⟨ops, rfl⟩, _, _, hf, ?_⟩
  rw [decide_eq_true_eq]
  constructor
  · exact fun hlen => ⟨_, ops, rfl, rfl, hlen⟩
  rintro ⟨_, ops', henc, rfl, hlen⟩
  obtain ⟨p'', hloop'⟩ := (h.foldlM_eq (expand ops') 0 hp).1 (by
    rw [Nat.sub_zero, drop_eq_nil_of_le hlen.le]
    simp)
  rw [← foldlM_applyOp hzero hsucc, ← sparseLoop_encode, ← henc, hloop, Nat.zero_add, hlen] at hloop'
  exact congrArg Prod.fst (Except.ok.inj hloop')

theorem not_covered_nil : ¬ Covered [] := by
  rintro ⟨_, ops, henc, rfl, hlen⟩
  have hle := length_le_encode ops
  rw [← henc] at hle
  rw [length_eq_zero_iff.mp (Nat.le_zero.mp hle)] at hlen
  cases hlen

section

variable {sparseMaxBytes index count endp p' runlen : Nat} {prev : Option Nat} {room buf : List UInt8}
  {o' : Hllhdr} {b : UInt8} {r : Int}

theorem updated_one (h : updated o prev buf endp = .ok (o', r)) : r = 1 := by
  obtain ⟨_, -, h⟩ := bind_eq_ok.mp h
  cases h
  rfl

theorem splitSeq_length {run : Nat → List UInt8} (h : ∀ n, (run n).length ≤ 2) (first last : Nat) :
    (splitSeq run first last index count).length ≤ 5 := by
  have h1 := h (index - first)
  have h2 := h (last - index)
  unfold splitSeq
  split <;> split <;> simp <;> omega

theorem updateOp_reports (hmax : hdrSize + endp + 5 ≤ sparseMaxBytes)
    (h : updateOp sparseMaxBytes o index count buf endp p' prev first span b runlen = .ok (o', r)) :
    r ≠ -1 := by
  unfold updateOp at h
  split at h
  · cases h
    decide
  split at h
  · obtain ⟨_, -, h⟩ := bind_eq_ok.mp h
    rw [updated_one h]
    decide
  have hseq : ∀ n, (zeroSeq n).length ≤ 2 := by
    intro n
    unfold zeroSeq
    split <;> simp [xzeroSet]
  rw [if_neg] at h
  · obtain ⟨_, -, h⟩ := bind_eq_ok.mp h
    rw [updated_one h]
    decide
  rw [not_and, not_lt]
  intro _
  have hlen : (if isZero b ∨ isXzero b then splitSeq zeroSeq first (first + span - 1) index count
      else splitSeq (fun len => [valSet (valValue b) len]) first (first + span - 1) index
        count).length ≤ 5 := by
    split
    · exact splitSeq_length hseq _ _
    · exact splitSeq_length (fun _ => by simp) _ _
  omega

/-- The first register is found in the first opcode, whatever follows. -/
theorem locate_first (hend : 0 < endp) {fuel first span : Nat}
    (h : locate buf endp 0 (fuel + 1) 0 none 0 0 = .ok (p', prev, first, span)) : span ≠ 0 := by
  rw [locate, if_pos hend] at h
  obtain ⟨b, -, h⟩ := bind_eq_ok.mp h
  obtain ⟨⟨span', oplen⟩, hspan, h⟩ := bind_eq_ok.mp h
  have hpos : 0 < span' := by
    split_ifs at hspan
    · cases hspan
      exact Nat.succ_pos _
    · cases hspan
      exact Nat.succ_pos _
    obtain ⟨_, -, hspan⟩ := bind_eq_ok.mp hspan
    cases hspan
    exact Nat.succ_pos _
  dsimp only at h
  rw [if_pos (by omega)] at h
  cases h
  omega

theorem hllSparseSet_reports (hne : o.registers ≠ [])
    (hmax : hdrSize + o.registers.length + 5 ≤ sparseMaxBytes)
    (h : hllSparseSet sparseMaxBytes room o 0 1 = .ok (o', r)) : r ≠ -1 := by
  rw [hllSparseSet, if_neg (by decide)] at h
  obtain ⟨⟨p', prev, first, span⟩, hloc, h⟩ := bind_eq_ok.mp h
  obtain ⟨n, hn⟩ := Nat.exists_eq_succ_of_ne_zero (mt length_eq_zero_iff.mp hne)
  have hspan : span ≠ 0 := by
    rw [hn] at hloc
    exact locate_first (Nat.succ_pos n) hloc
  dsimp only at h
  rw [if_neg hspan] at h
  obtain ⟨b, -, h⟩ := bind_eq_ok.mp h
  obtain ⟨runlen, -, h⟩ := bind_eq_ok.mp h
  exact updateOp_reports hmax h

end

theorem setDetects_iff (henc : o.encoding = encSparse) :
    SetDetects o ↔ o.registers = [] ∨ Covered o.registers := by
  constructor
  · intro h
    by_contra hnot
    rw [not_or] at hnot
    obtain ⟨-, o', r, hset, hr⟩ := h 0 1 (hdrSize + o.registers.length + 5) [0, 0, 0] (by decide)
      (by decide) (by decide) (by decide)
    exact hllSparseSet_reports hnot.1 le_rfl hset (hr.mpr hnot.2)
  rintro (hnil | ⟨_, ops, hbytes, rfl, hlen⟩) index count sparseMaxBytes room hindex hc hc' hroom
  · rw [hnil]
    refine ⟨⟨0, none, 0, 0, rfl, .inl rfl⟩, o, -1, ?_, by simp [not_covered_nil]⟩
    have hdense : hllSparseToDense o = .ok (o, false) := by
      rw [hllSparseToDense, if_neg (by rw [henc]; decide), hnil]
      rfl
    unfold hllSparseSet
    split
    · rw [promote, hdense]
      rfl
    · rw [hnil]
      rfl
  have hlt : index < (expand ops).length := hlen.symm ▸ hindex
  constructor
  · obtain ⟨ops₁, op, ops₂, rfl, hfirst, hlast⟩ := exists_cover hlt
    obtain ⟨prev, hlocate, -⟩ := @locate_eq [] [] op _ 0 0 ops₁ ops₂ index none (by omega)
      (by omega) le_rfl
    rw [nil_append, append_nil, length_nil, Nat.zero_add, ← hbytes] at hlocate
    refine ⟨_, _, _, _, hlocate, .inr ?_⟩
    rw [hbytes, encode_append, encode_cons, length_append, length_append]
    have hpos := op.bytes_length_pos
    omega
  obtain ⟨o', hset, -⟩ := hllSparseSet_spec sparseMaxBytes ⟨ops, hbytes, rfl, hlen⟩ henc hroom
    (getElem?_eq_getElem hlt) hc (lt_of_le_of_lt hc' (by decide))
  refine ⟨o', _, hset, ?_⟩
  have hcovered : Covered o.registers := ⟨_, ops, hbytes, rfl, hlen⟩
  split <;> simp [hcovered]

end UfsRedis.Hll
