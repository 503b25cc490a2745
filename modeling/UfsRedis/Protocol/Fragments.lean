import UfsRedis.Protocol.Multibulk

/-!
# Commands in any fragments

A link delivers the bytes of a sequence of commands in reads of any length, and the parser of
`UfsRedis.Protocol.Multibulk` gives back the sequence.

`Waits` is the state between two reads: what is in the buffer and what is still to come is the rest
of the current command and the commands after it, and the buffer ends before the next length or
argument does. `Waits.read` is one read and `readAll_resp` all of them. The sizes matter in one
place: a line that is not complete is an error in a buffer of more than 64 KiB, and the bound on
reads keeps the buffer below that wherever a line is searched.
-/

namespace UfsRedis

open List

/-! ## Lines -/

section

variable {ch : Char} {w s : List Char} {n : Nat}

theorem strchr_eq_none (h : ∀ x ∈ w, x ≠ ch) : strchr w ch = none := by
  unfold strchr
  rw [findIdx?_eq_none_iff]
  intro x hx
  simpa using h x ((takeWhile_sublist _).subset hx)

theorem strchr_append (h : ∀ x ∈ w, x ≠ '\x00' ∧ x ≠ ch) (hch : ch ≠ '\x00') :
    strchr (w ++ ch :: s) ch = some w.length := by
  unfold strchr
  have htake : (w ++ ch :: s).takeWhile (· ≠ '\x00') = w ++ (ch :: s).takeWhile (· ≠ '\x00') :=
    takeWhile_append_of_pos fun x hx => by simpa using (h x hx).1
  rw [htake, takeWhile_cons_of_pos (by simpa using hch), findIdx?_append,
    findIdx?_eq_none_iff.2 fun x hx => by simpa using (h x hx).2, findIdx?_cons]
  simp

theorem string2llDigits_eq (s : List Char) (v : Nat) (hd : ∀ x ∈ s, x.isDigit)
    (hlt : Nat.ofDigitChars 10 s v < 2 ^ 64) :
    string2llDigits v s = some (Nat.ofDigitChars 10 s v) := by
  induction s generalizing v with
  | nil => rfl
  | cons x s ih =>
    rw [Nat.ofDigitChars_cons] at hlt ⊢
    have hle := le_ofDigitChars s (10 * v + (x.toNat - '0'.toNat))
    unfold string2llDigits
    rw [if_pos (hd x mem_cons_self), if_neg (by omega), if_neg (by omega), mul_comm v 10]
    exact ih _ (fun y hy => hd y (mem_cons_of_mem x hy)) hlt

theorem string2ull_ll2string (hpos : 0 < n) (hn : n < 2 ^ 64) :
    string2ull (ll2string n) = some n := by
  obtain ⟨d, ds, heq, hd⟩ := exists_ll2string_eq_cons hpos
  have hdigit {x : Char} (hx : x ∈ d :: ds) : x.isDigit := isDigit_of_mem_ll2string (heq ▸ hx)
  have hval : Nat.ofDigitChars 10 ds (d.toNat - '0'.toNat) = n := by
    have : Nat.ofDigitChars 10 (ll2string n) 0 = n :=
      Nat.ofDigitChars_toDigits (by decide) (by decide)
    rw [heq, Nat.ofDigitChars_cons] at this
    simpa using this
  rw [heq, string2ull, if_pos ⟨hdigit mem_cons_self, hd⟩, string2llDigits_eq ds _
    (fun x hx => hdigit (mem_cons_of_mem d hx)) (by omega), hval]

theorem string2ll_ll2string (hn : n < 2 ^ 63) : string2ll (ll2string n) = some (n : Int) := by
  rcases Nat.eq_zero_or_pos n with rfl | hpos
  · rfl
  obtain ⟨d, ds, heq, hd⟩ := exists_ll2string_eq_cons hpos
  have hull := string2ull_ll2string hpos (by omega)
  have hminus : d ≠ '-' := by
    rintro rfl
    exact absurd (isDigit_of_mem_ll2string (heq ▸ mem_cons_self)) (by decide)
  rw [heq] at hull ⊢
  unfold string2ll
  rw [if_neg (by simp [hd]), if_neg (by simpa using hminus), hull]
  show (if n > 2 ^ 63 - 1 then none else some (n : Int)) = some (n : Int)
  rw [if_neg (by omega)]

theorem length_lenHeader_le (hn : n < 2 ^ 63) : (lenHeader ch n).length ≤ 22 := by
  have : (ll2string n).length ≤ 19 := (Nat.length_toDigits_le_iff (by omega) (by omega)).2 (by omega)
  simp only [lenHeader, crlf, length_cons, length_append, length_nil]
  omega

theorem signedInt_of_lt (hn : n < 2 ^ 31) : signedInt n = n := by
  unfold signedInt
  rw [Nat.mod_eq_of_lt (by omega), if_pos hn]

theorem lenHeader_cases (h : s ++ rest = lenHeader ch n ++ more) :
    s.length < (lenHeader ch n).length ∨ ∃ s', s = lenHeader ch n ++ s' ∧ s' ++ rest = more := by
  rcases append_eq_append_iff.1 h with ⟨t, ht, hr⟩ | ⟨t, ht, hr⟩
  · cases t with
    | nil => exact .inr ⟨[], by simpa using ht.symm, by simpa using hr⟩
    | cons x t => exact .inl (by rw [ht, length_append, length_cons]; omega)
  · exact .inr ⟨t, ht, hr.symm⟩

section

variable (hch : ch = '*' ∨ ch = '$')
include hch

theorem lenHeader_word : ∀ x ∈ ch :: ll2string n, x ≠ '\x00' ∧ x ≠ '\r' := by
  intro x hx
  rcases mem_cons.1 hx with rfl | hx
  · rcases hch with rfl | rfl <;> decide
  have := isDigit_of_mem_ll2string hx
  constructor
  · rintro rfl
    exact absurd this (by decide)
  rintro rfl
  exact absurd this (by decide)

theorem strchr_of_short
    (h : s ++ rest = lenHeader ch n ++ more) (hlt : s.length < (lenHeader ch n).length) :
    strchr s '\r' = none ∨ ∃ i, strchr s '\r' = some i ∧ s.length < i + 2 := by
  have hsplit : lenHeader ch n = (ch :: ll2string n) ++ '\r' :: ['\n'] := rfl
  have hs : s = (lenHeader ch n).take s.length := by
    have := congrArg (List.take s.length) h
    rwa [take_left, take_append_of_le_length hlt.le] at this
  have hword := lenHeader_word (n := n) hch
  generalize ch :: ll2string n = w at hsplit hword
  rw [hsplit] at hs hlt
  have hle : s.length ≤ w.length + 1 := by
    rw [length_append, length_cons, length_cons, length_nil] at hlt
    omega
  rcases lt_or_ge w.length s.length with hw | hw
  · -- the word and the first half of the end
    right
    have hlen : s.length = w.length + 1 := by omega
    refine ⟨w.length, ?_, by omega⟩
    rw [hs, hlen, take_length_add_append]
    exact strchr_append hword (by decide)
  left
  apply strchr_eq_none
  intro x hx
  rw [hs, take_append_of_le_length hw] at hx
  exact (hword x (mem_of_mem_take hx)).2

theorem strchr_lenHeader : strchr (lenHeader ch n ++ s) '\r' = some ((ll2string n).length + 1) := by
  have hsplit : lenHeader ch n ++ s = (ch :: ll2string n) ++ '\r' :: ('\n' :: s) := by
    simp [lenHeader, crlf]
  rw [hsplit, strchr_append (lenHeader_word hch) (by decide), length_cons]

end

theorem length_lenHeader : (lenHeader ch n).length = (ll2string n).length + 3 := by
  simp [lenHeader, crlf]

theorem string2ll_lenHeader (hn : n < 2 ^ 63) :
    string2ll (((lenHeader ch n ++ s).take ((ll2string n).length + 1)).drop 1) = some (n : Int) := by
  have : ((lenHeader ch n ++ s).take ((ll2string n).length + 1)).drop 1 = ll2string n := by
    simp [lenHeader]
  rw [this, string2ll_ll2string hn]

end

namespace Input

variable {maxBulk : Nat} {rest more : List Char} {c : Reader}

theorem mbulkHeader_spec (hn : n ≤ 1024 * 1024) (hargv : c.argv = [])
    (hlen : c.querybuf.length ≤ inlineMaxSize) (h : c.querybuf ++ rest = lenHeader '*' n ++ more) :
    (mbulkHeader c = .ok .wait ∧ c.querybuf.length < (lenHeader '*' n).length) ∨
      ∃ s', c.querybuf = lenHeader '*' n ++ s' ∧ s' ++ rest = more ∧
        mbulkHeader c = .ok (.number (lenHeader '*' n).length n) := by
  have hsigned : signedInt c.querybuf.length = c.querybuf.length :=
    signedInt_of_lt (by unfold inlineMaxSize at hlen; omega)
  unfold mbulkHeader
  rw [if_neg (by simp [hargv])]
  rcases lenHeader_cases h with hlt | ⟨s', hs, hmore⟩
  · left
    rcases strchr_of_short (.inl rfl) h hlt with hnone | ⟨i, hi, hlt'⟩
    · simp only [hnone, if_neg (not_lt.2 hlen)]
      exact ⟨trivial, hlt⟩
    simp only [hi, hsigned]
    rw [if_pos (by omega)]
    exact ⟨rfl, hlt⟩
  right
  refine ⟨s', hs, hmore, ?_⟩
  have hlen' : c.querybuf.length = (ll2string n).length + 3 + s'.length := by
    rw [hs, length_append, length_lenHeader]
  have hi : strchr c.querybuf '\r' = some ((ll2string n).length + 1) := by
    rw [hs]
    exact strchr_lenHeader (.inl rfl)
  have hll : string2ll ((c.querybuf.take ((ll2string n).length + 1)).drop 1) = some (n : Int) := by
    rw [hs]
    exact string2ll_lenHeader (by omega)
  simp only [hi, hsigned, hll]
  rw [if_neg (by omega), if_neg (by rw [hs]; simp [lenHeader]), if_neg (by omega), length_lenHeader]

theorem bulkHeader_spec (hn : n ≤ maxBulk) (hmax : maxBulk < 2 ^ 63)
    (hlen : c.querybuf.length ≤ inlineMaxSize)
    (h : c.querybuf.drop pos ++ rest = lenHeader '$' n ++ more) :
    (bulkHeader maxBulk pos c = .wait ∧ (c.querybuf.drop pos).length < (lenHeader '$' n).length) ∨
      (c.querybuf.drop (pos + (lenHeader '$' n).length) ++ rest = more ∧
        bulkHeader maxBulk pos c = .number (pos + (lenHeader '$' n).length) n) := by
  have hsigned : signedInt c.querybuf.length = c.querybuf.length :=
    signedInt_of_lt (by unfold inlineMaxSize at hlen; omega)
  have hdrop : (c.querybuf.drop pos).length = c.querybuf.length - pos := length_drop
  unfold bulkHeader
  rcases lenHeader_cases h with hlt | ⟨s', hs, hmore⟩
  · left
    rcases strchr_of_short (.inr rfl) h hlt with hnone | ⟨i, hi, hlt'⟩
    · simp only [hnone, if_neg (not_lt.2 hlen)]
      exact ⟨trivial, hlt⟩
    simp only [hi, hsigned]
    rw [if_pos (by omega)]
    exact ⟨rfl, hlt⟩
  right
  have hlen' : c.querybuf.length - pos = (ll2string n).length + 3 + s'.length := by
    rw [← hdrop, hs, length_append, length_lenHeader]
  have hi : strchr (c.querybuf.drop pos) '\r' = some ((ll2string n).length + 1) := by
    rw [hs]
    exact strchr_lenHeader (.inr rfl)
  have hll : string2ll (((c.querybuf.drop pos).take ((ll2string n).length + 1)).drop 1) =
      some (n : Int) := by
    rw [hs]
    exact string2ll_lenHeader (by omega)
  constructor
  · rw [← drop_drop, hs, drop_left, hmore]
  simp only [hi, hsigned, hll]
  rw [if_neg (by omega), if_neg (by rw [hs]; simp [lenHeader]), if_neg (by omega), length_lenHeader]
  simp only [Line.number.injEq, and_true]
  omega

/-! ## One command -/

/-- The rest of a command: the arguments that have not been read, without the length of the first
one if it is known. -/
def partText : Option Nat → List Sds → List Char
  | some _, o :: args => o ++ crlf ++ args.flatMap respArg
  | _, args => args.flatMap respArg

def need : Option Nat → List Sds → List (List Sds) → Nat
  | some len, _, _ => len + 2
  | none, o :: _, _ => (lenHeader '$' o.length).length
  | none, [], argv :: _ => (lenHeader '*' argv.length).length
  | none, [], [] => 1

/-- The parser at `pos`: `args` are still to be read, and then `cmds`. -/
structure Reads (maxBulk : Nat) (rest : List Char) (cmds : List (List Sds)) (pos : Nat) (c : Reader)
    (args : List Sds) : Prop where
  text : c.querybuf.drop pos ++ rest = partText c.bulklen args ++ cmds.flatMap resp
  count : c.multibulklen = args.length
  bulk : ∀ len, c.bulklen = some len → ∃ o args', args = o :: args' ∧ len = o.length
  small : ∀ o ∈ args, o.length ≤ maxBulk
  room : c.querybuf.length ≤ 49153 ∨ pos = 0 ∧ ∃ len, c.bulklen = some len ∧ mbulkBigArg ≤ len ∧
    c.querybuf.length ≤ len + 2

def Same (c c' : Reader) : Prop :=
  c'.reqtype = c.reqtype ∧ c'.replies = c.replies ∧ c'.closing = c.closing

theorem Same.refl (c : Reader) : Same c c := ⟨rfl, rfl, rfl⟩

theorem Same.trans (h : Same c₁ c₂) (h' : Same c₂ c₃) : Same c₁ c₃ :=
  ⟨h'.1.trans h.1, h'.2.1.trans h.2.1, h'.2.2.trans h.2.2⟩

variable {cmds : List (List Sds)} {args : List Sds}

section

variable {pos : Nat} {o : Sds}

theorem bulkLen_spec (hmax : maxBulk < 2 ^ 63) (h : Reads maxBulk rest cmds pos c (o :: args)) :
    (bulkLen maxBulk pos c = .wait ∧
        (c.querybuf.drop pos).length < need c.bulklen (o :: args) cmds) ∨
      ∃ pos' c', bulkLen maxBulk pos c = .len pos' c' o.length ∧
        Reads maxBulk rest cmds pos' c' (o :: args) ∧ c'.bulklen = some o.length ∧
        c'.argv = c.argv ∧ Same c c' := by
  unfold bulkLen
  cases hb : c.bulklen with
  | some len =>
    right
    obtain ⟨o', args', hcons, hlen⟩ := h.bulk len hb
    cases hcons
    exact ⟨pos, c, by rw [hlen], h, by rw [hb, hlen], rfl, .refl c⟩
  | none =>
    have hroom : c.querybuf.length ≤ 49153 := by
      rcases h.room with hroom | ⟨_, len, hlen, _⟩
      · exact hroom
      rw [hb] at hlen
      cases hlen
    have htext : c.querybuf.drop pos ++ rest =
        lenHeader '$' o.length ++ (o ++ crlf ++ args.flatMap respArg ++ cmds.flatMap resp) := by
      rw [h.text, hb]
      simp [partText, respArg]
    rcases bulkHeader_spec (h.small o mem_cons_self) hmax
      (by unfold inlineMaxSize; omega) htext with ⟨hwait, hlt⟩ | ⟨hmore, hnum⟩
    · left
      simp only [hwait]
      exact ⟨trivial, hlt⟩
    right
    simp only [hnum, Int.toNat_natCast]
    -- a big argument is moved to the front of the buffer
    split
    · refine ⟨_, _, rfl, ⟨?_, h.count, ?_, h.small, .inl ?_⟩, rfl, rfl, rfl, rfl, rfl⟩
      · exact hmore
      · rintro len hlen
        cases hlen
        exact ⟨o, args, rfl, rfl⟩
      show (c.querybuf.drop _).length ≤ 49153
      rw [length_drop]
      omega
    refine ⟨_, _, rfl, ⟨?_, h.count, ?_, h.small, .inl hroom⟩, rfl, rfl, rfl, rfl, rfl⟩
    · exact hmore
    rintro len hlen
    cases hlen
    exact ⟨o, args, rfl, rfl⟩

theorem takeBulk_spec (h : Reads maxBulk rest cmds pos c (o :: args))
    (hb : c.bulklen = some o.length) : (takeBulk pos c o.length = none ∧
        (c.querybuf.drop pos).length < need c.bulklen (o :: args) cmds) ∨
      ∃ pos' c', takeBulk pos c o.length = some (pos', c') ∧ Reads maxBulk rest cmds pos' c' args ∧
        c'.argv = c.argv ++ [o] ∧ Same c c' := by
  have htext : c.querybuf.drop pos ++ rest =
      o ++ (crlf ++ (args.flatMap respArg ++ cmds.flatMap resp)) := by
    rw [h.text, hb]
    simp [partText]
  have hdrop : (c.querybuf.drop pos).length = c.querybuf.length - pos := length_drop
  have hcount : c.multibulklen - 1 = args.length := by rw [h.count]; rfl
  have hsmall : ∀ o ∈ args, o.length ≤ maxBulk := fun o' ho' => h.small o' (mem_cons_of_mem o ho')
  unfold takeBulk
  by_cases hlt : c.querybuf.length - pos < o.length + 2
  · left
    rw [if_pos hlt, hb, hdrop]
    exact ⟨rfl, hlt⟩
  right
  -- the argument and the end of its line are in the buffer
  obtain ⟨s', hs, hrest⟩ : ∃ s', c.querybuf.drop pos = o ++ crlf ++ s' ∧
      s' ++ rest = args.flatMap respArg ++ cmds.flatMap resp := by
    rw [← append_assoc] at htext
    rcases append_eq_append_iff.1 htext with ⟨t, ht, hr⟩ | ⟨t, ht, hr⟩
    · obtain _ | ⟨x, t⟩ := t
      · exact ⟨[], by simpa using ht.symm, by simpa using hr⟩
      have := congrArg length ht
      simp [crlf] at this
      omega
    · exact ⟨t, ht, hr.symm⟩
  have htake : (c.querybuf.drop pos).take o.length = o := by
    rw [hs, append_assoc, take_left]
  have hlen := congrArg length hs
  simp only [hdrop, length_append, crlf, length_cons, length_nil] at hlen
  rw [if_neg hlt]
  split
  · rename_i hzero
    obtain ⟨rfl, _, hall⟩ := hzero
    have hnil : s' = [] := length_eq_zero_iff.1 (by omega)
    refine ⟨_, _, rfl, ⟨?_, hcount, ?_, hsmall, .inl (by simp)⟩, ?_, rfl, rfl, rfl⟩
    · rw [hnil] at hrest
      simpa [partText] using hrest
    · rintro len hlen
      cases hlen
    rw [drop_zero] at htake
    rw [htake]
  rename_i hzero
  refine ⟨_, _, rfl, ⟨?_, hcount, ?_, hsmall, .inl ?_⟩, by rw [htake], rfl, rfl, rfl⟩
  · have : c.querybuf.drop (pos + o.length + 2) = s' := by
      rw [add_assoc, ← drop_drop, hs, append_assoc, ← drop_drop, drop_left]
      rfl
    simpa [partText, this] using hrest
  · rintro len hlen
    cases hlen
  rcases h.room with hroom | ⟨hpos, len, hlen', hbig, hroom⟩
  · exact hroom
  -- a buffer with only a big argument is taken as a whole
  rw [hb] at hlen'
  cases hlen'
  exact absurd ⟨hpos, hbig, by omega⟩ hzero

variable (hmax : maxBulk < 2 ^ 63) (h : Reads maxBulk rest cmds pos c args)
include hmax h

theorem readBulks_spec :
    ∃ pos' c' done args', readBulks maxBulk args.length pos c = .leave pos' c' ∧
      args = done ++ args' ∧ Reads maxBulk rest cmds pos' c' args' ∧ c'.argv = c.argv ++ done ∧
      Same c c' ∧ (args' ≠ [] → (c'.querybuf.drop pos').length < need c'.bulklen args' cmds) := by
  induction args generalizing pos c with
  | nil => exact ⟨pos, c, [], [], rfl, rfl, h, by simp, .refl c, fun hne => absurd rfl hne⟩
  | cons o args ih =>
    rw [length_cons, readBulks]
    rcases bulkLen_spec hmax h with ⟨hwait, hlt⟩ | ⟨pos1, c1, hlen, h1, hb, hargv1, hsame1⟩
    · rw [hwait]
      exact ⟨pos, c, [], o :: args, rfl, rfl, h, by simp, .refl c, fun _ => hlt⟩
    simp only [hlen]
    rcases takeBulk_spec h1 hb with ⟨hnone, hlt⟩ | ⟨pos2, c2, htake, h2, hargv2, hsame2⟩
    · simp only [hnone]
      exact ⟨pos1, c1, [], o :: args, rfl, rfl, h1, by simp [hargv1], hsame1, fun _ => hlt⟩
    simp only [htake]
    obtain ⟨pos3, c3, done, args', heq, hsplit, h3, hargv3, hsame3, hneed⟩ := ih h2
    refine ⟨pos3, c3, o :: done, args', heq, by rw [hsplit]; rfl, h3, ?_,
      (hsame1.trans hsame2).trans hsame3, hneed⟩
    rw [hargv3, hargv2, hargv1, append_assoc]
    rfl

theorem finishBulks_spec :
    ∃ c' done args', finishBulks maxBulk pos c = (c', args'.isEmpty) ∧ args = done ++ args' ∧
      Reads maxBulk rest cmds 0 c' args' ∧ c'.argv = c.argv ++ done ∧ Same c c' ∧
      (args' ≠ [] → c'.querybuf.length < need c'.bulklen args' cmds) := by
  obtain ⟨pos', c', done, args', heq, hsplit, h', hargv, hsame, hneed⟩ := readBulks_spec hmax h
  refine ⟨{ c' with querybuf := c'.querybuf.drop pos' }, done, args', ?_, hsplit, ?_, hargv, hsame,
    hneed⟩
  · unfold finishBulks
    rw [h.count, heq]
    simp only [h'.count, Prod.mk.injEq, true_and]
    cases args' <;> rfl
  refine ⟨h'.text, h'.count, h'.bulk, h'.small, ?_⟩
  rcases h'.room with hroom | ⟨rfl, len, hlen, hbig, hroom⟩
  · left
    rw [length_drop]
    omega
  · exact .inr ⟨rfl, len, hlen, hbig, by simpa using hroom⟩

end

/-! ## Any number of commands -/

def Accepted (maxBulk : Nat) (argv : List Sds) : Prop :=
  argv ≠ [] ∧ argv.length ≤ 1024 * 1024 ∧ ∀ o ∈ argv, o.length ≤ maxBulk

def expected (c : Reader) (args : List Sds) (cmds : List (List Sds)) : List (List Sds) :=
  if args = [] then cmds else (c.argv ++ args) :: cmds

/-- A connection whose buffer has been extended. -/
structure Ready (maxBulk : Nat) (rest : List Char) (c : Reader) (args : List Sds)
    (cmds : List (List Sds)) : Prop where
  reads : Reads maxBulk rest cmds 0 c args
  accepted : ∀ argv ∈ cmds, Accepted maxBulk argv
  between : args = [] → c.argv = []
  reqtype : c.reqtype = some .multibulk ∨ c.reqtype = none ∧ args = []
  idle : args = [] → c.querybuf = [] → c.reqtype = none
  replies : c.replies = []
  closing : c.closing = false

/-- A connection between two reads: the buffer has less than the parser waits for. -/
structure Waits (maxBulk : Nat) (rest : List Char) (c : Reader) (args : List Sds)
    (cmds : List (List Sds)) : Prop extends Ready maxBulk rest c args cmds where
  short : c.querybuf.length < need c.bulklen args cmds

theorem Reads.bulklen_eq_none (h : Reads maxBulk rest cmds pos c []) : c.bulklen = none := by
  rcases hb : c.bulklen with _ | len
  · rfl
  obtain ⟨o, args', hcons, _⟩ := h.bulk len hb
  cases hcons

theorem need_pos (b : Option Nat) (args : List Sds) (cmds : List (List Sds)) :
    0 < need b args cmds := by
  unfold need
  split <;> simp [lenHeader]

theorem Ready.cases (h : Ready maxBulk rest c [] cmds) (hne : c.querybuf ≠ []) :
    ∃ argv cmds', cmds = argv :: cmds' ∧ Accepted maxBulk argv ∧ c.bulklen = none ∧
      c.querybuf.length ≤ 49153 ∧ c.querybuf ++ rest =
        lenHeader '*' argv.length ++ (argv.flatMap respArg ++ cmds'.flatMap resp) := by
  have hb := h.reads.bulklen_eq_none
  have hroom : c.querybuf.length ≤ 49153 := by
    rcases h.reads.room with hroom | ⟨_, len, hlen, _⟩
    · exact hroom
    rw [hb] at hlen
    cases hlen
  have htext : c.querybuf ++ rest = cmds.flatMap resp := by
    have := h.reads.text
    rw [hb] at this
    simpa [partText] using this
  obtain _ | ⟨argv, cmds'⟩ := cmds
  · have : c.querybuf = [] := (append_eq_nil_iff.1 htext).1
    exact absurd this hne
  refine ⟨argv, cmds', rfl, h.accepted argv mem_cons_self, hb, hroom, ?_⟩
  rw [htext]
  simp [resp]

theorem finishBulks_cases (hmax : maxBulk < 2 ^ 63)
    (h : Reads maxBulk rest cmds pos c args) (hacc : ∀ argv ∈ cmds, Accepted maxBulk argv)
    (hreq : c.reqtype = some .multibulk) (hreplies : c.replies = []) (hclosing : c.closing = false) :
    (∃ c', finishBulks maxBulk pos c = (c', true) ∧ c'.argv = c.argv ++ args ∧ Same c c' ∧
        Reads maxBulk rest cmds 0 c' []) ∨
      ∃ c' args', finishBulks maxBulk pos c = (c', false) ∧ args' ≠ [] ∧
        c'.argv ++ args' = c.argv ++ args ∧ Waits maxBulk rest c' args' cmds := by
  obtain ⟨c', done, args', heq, hsplit, h', hargv, hsame, hneed⟩ := finishBulks_spec hmax h
  by_cases hargs : args' = []
  · left
    subst hargs
    refine ⟨c', heq, ?_, hsame, h'⟩
    rw [hargv, hsplit, append_nil]
  right
  refine ⟨c', args', ?_, hargs, ?_, ?_⟩
  · rw [heq]
    simpa using hargs
  · rw [hargv, hsplit, append_assoc]
  exact
    { reads := h'
      accepted := hacc
      between := fun hnil => absurd hnil hargs
      reqtype := .inl (hsame.1.trans hreq)
      idle := fun hnil => absurd hnil hargs
      replies := hsame.2.1.trans hreplies
      closing := hsame.2.2.trans hclosing
      short := hneed hargs }

theorem Reads.length_lt {c' head} (h : Reads maxBulk rest cmds 0 c' [])
    (hhead : head ≠ []) (htext : c.querybuf ++ rest = head ++ cmds.flatMap resp) :
    c'.querybuf.length < c.querybuf.length := by
  have hb := h.bulklen_eq_none
  have h1 := congrArg length h.text
  have h2 := congrArg length htext
  have h3 := length_pos_of_ne_nil hhead
  rw [hb, drop_zero] at h1
  simp only [partText, flatMap_nil, nil_append, length_append] at h1 h2
  omega

theorem processMultibulkBuffer_spec (hmax : maxBulk < 2 ^ 63) (h : Ready maxBulk rest c args cmds)
    (hne : c.querybuf ≠ []) (hreq : c.reqtype = some .multibulk) :
    (∃ c' cmds', processMultibulkBuffer maxBulk c = .ok (c', true) ∧
        expected c args cmds = c'.argv :: cmds' ∧ c'.argv ≠ [] ∧ Same c c' ∧
        Reads maxBulk rest cmds' 0 c' [] ∧ c'.querybuf.length < c.querybuf.length ∧
        ∀ argv ∈ cmds', Accepted maxBulk argv) ∨
      ∃ c' args' cmds', processMultibulkBuffer maxBulk c = .ok (c', false) ∧
        expected c' args' cmds' = expected c args cmds ∧ Waits maxBulk rest c' args' cmds' := by
  unfold processMultibulkBuffer
  obtain _ | ⟨o, args⟩ := args
  · obtain ⟨argv, cmds', rfl, hargv, hb, hroom, htext⟩ := h.cases hne
    have hacc : ∀ a ∈ cmds', Accepted maxBulk a := fun a ha =>
      h.accepted a (mem_cons_of_mem argv ha)
    have hcount : c.multibulklen = 0 := h.reads.count
    rw [if_pos hcount]
    rcases mbulkHeader_spec hargv.2.1 (h.between rfl) (by unfold inlineMaxSize; omega) htext with
      ⟨hwait, hlt⟩ | ⟨s', hs, hmore, hnum⟩
    · right
      rw [hwait, ok_bind]
      exact ⟨c, [], argv :: cmds', rfl, rfl, h, by rw [hb]; exact hlt⟩
    have hpos : 0 < argv.length := length_pos_of_ne_nil hargv.1
    have h1 : Reads maxBulk rest cmds' (lenHeader '*' argv.length).length
        { c with multibulklen := argv.length, argv := [] } argv := by
      refine ⟨?_, rfl, ?_, hargv.2.2, .inl hroom⟩
      · show c.querybuf.drop _ ++ rest = partText c.bulklen argv ++ _
        rw [hs, drop_left, hmore, hb]
        rfl
      intro len hlen
      rw [hb] at hlen
      cases hlen
    rw [hnum, ok_bind]
    simp only [Int.toNat_natCast, if_neg (show ¬ (argv.length : Int) ≤ 0 by omega), pure_eq_ok]
    rcases finishBulks_cases hmax h1 hacc hreq h.replies h.closing with
      ⟨c', heq, hfull, hsame, h'⟩ | ⟨c', args', heq, hargs, hfull, hwaits⟩
    · left
      have hfull : c'.argv = argv := hfull
      refine ⟨c', cmds', by rw [heq], by rw [hfull]; rfl, by rw [hfull]; exact hargv.1, hsame, h',
        h'.length_lt (resp_ne_nil argv) ?_, hacc⟩
      rw [htext]
      simp [resp]
    right
    refine ⟨c', args', cmds', by rw [heq], ?_, hwaits⟩
    unfold expected
    rw [if_neg hargs, hfull]
    rfl
  have hcount : c.multibulklen ≠ 0 := by rw [h.reads.count, length_cons]; omega
  rw [if_neg hcount]
  rcases finishBulks_cases hmax h.reads h.accepted hreq h.replies h.closing with
    ⟨c', heq, hfull, hsame, h'⟩ | ⟨c', args', heq, hargs, hfull, hwaits⟩
  · left
    refine ⟨c', cmds, by rw [heq], by rw [hfull]; rfl, by rw [hfull]; simp, hsame, h',
      h'.length_lt ?_ h.reads.text, h.accepted⟩
    cases c.bulklen <;> simp [partText, respArg, crlf]
  right
  refine ⟨c', args', cmds, by rw [heq], ?_, hwaits⟩
  unfold expected
  rw [if_neg hargs, if_neg (by simp), hfull]

variable {processInlineBuffer : Reader → Reader × Bool}

theorem Ready.waits_of_nil (h : Ready maxBulk rest c args cmds) (hnil : c.querybuf = []) :
    Waits maxBulk rest c args cmds :=
  { h with short := by rw [hnil]; exact need_pos _ _ _ }

theorem Ready.reset (h : Reads maxBulk rest cmds 0 c []) (hacc : ∀ argv ∈ cmds, Accepted maxBulk argv)
    (hreplies : c.replies = []) (hclosing : c.closing = false) :
    Ready maxBulk rest (resetClient c) [] cmds := by
  have hb := h.bulklen_eq_none
  refine ⟨⟨?_, rfl, fun len hlen => (by cases hlen), by simp, .inl ?_⟩, hacc, fun _ => rfl,
    .inr ⟨rfl, rfl⟩, fun _ _ => rfl, hreplies, hclosing⟩
  · have := h.text
    rw [hb] at this
    exact this
  rcases h.room with hroom | ⟨_, len, hlen, _⟩
  · exact hroom
  rw [hb] at hlen
  cases hlen

theorem Ready.reqtype_eq (h : Ready maxBulk rest c args cmds) (hne : c.querybuf ≠ []) :
    c.reqtype.getD (if c.querybuf.head? = some '*' then .multibulk else .inline) = .multibulk := by
  rcases h.reqtype with hreq | ⟨hreq, rfl⟩
  · rw [hreq]
    rfl
  obtain ⟨argv, cmds', _, _, _, _, htext⟩ := h.cases hne
  have hhead : c.querybuf.head? = some '*' := by
    have := congrArg List.head? htext
    rwa [head?_append_of_ne_nil _ hne] at this
  rw [hreq, hhead]
  rfl

theorem processInput_spec (hmax : maxBulk < 2 ^ 63) (fuel : Nat)
    (h : Ready maxBulk rest c args cmds) (hfuel : c.querybuf.length ≤ fuel) :
    ∃ c' out args' cmds', processInput processInlineBuffer maxBulk fuel c = .ok (c', out) ∧
      out ++ expected c' args' cmds' = expected c args cmds ∧ Waits maxBulk rest c' args' cmds' := by
  induction fuel generalizing c args cmds with
  | zero =>
    have hnil : c.querybuf = [] := length_eq_zero_iff.1 (by omega)
    exact ⟨c, [], args, cmds, by simp [processInput, hnil], rfl, h.waits_of_nil hnil⟩
  | succ fuel ih =>
    by_cases hnil : c.querybuf = []
    · exact ⟨c, [], args, cmds, by simp [processInput, hnil], rfl, h.waits_of_nil hnil⟩
    unfold processInput
    rw [if_neg hnil, if_neg (by simp [h.closing])]
    simp only [h.reqtype_eq hnil]
    have h1 : Ready maxBulk rest { c with reqtype := some .multibulk } args cmds :=
      { h with reads := ⟨h.reads.text, h.reads.count, h.reads.bulk, h.reads.small, h.reads.room⟩
               reqtype := .inl rfl
               idle := fun _ hq => absurd hq hnil }
    rcases processMultibulkBuffer_spec hmax h1 hnil rfl with
      ⟨c', cmds', heq, hexp, hargv, hsame, hreads, hlt, hacc⟩ |
      ⟨c', args', cmds', heq, hexp, hwaits⟩
    · -- a command has been read
      have h2 := Ready.reset hreads hacc (hsame.2.1.trans h.replies) (hsame.2.2.trans h.closing)
      have hlt : c'.querybuf.length < c.querybuf.length := hlt
      obtain ⟨c2, out, args2, cmds2, heq2, hexp2, hwaits⟩ :=
        ih h2 (show c'.querybuf.length ≤ fuel by omega)
      refine ⟨c2, c'.argv :: out, args2, cmds2, ?_, ?_, hwaits⟩
      · simp [heq, heq2, if_neg hargv]
      rw [cons_append, hexp2]
      exact hexp.symm
    refine ⟨c', [], args', cmds', ?_, hexp, hwaits⟩
    simp [heq]

/-! ## Any number of reads -/

theorem Ready.need_le (hmax : maxBulk < 2 ^ 63) (h : Ready maxBulk rest c args cmds)
    (hb : c.bulklen = none) : need c.bulklen args cmds ≤ 22 := by
  rw [hb]
  cases args with
  | cons o args =>
    have := h.reads.small o mem_cons_self
    show (lenHeader '$' o.length).length ≤ 22
    exact length_lenHeader_le (by omega)
  | nil =>
    cases cmds with
    | cons argv cmds =>
      have := (h.accepted argv mem_cons_self).2.1
      show (lenHeader '*' argv.length).length ≤ 22
      exact length_lenHeader_le (by omega)
    | nil => exact Nat.succ_le_succ (Nat.zero_le _)

variable {bytes : Sds} {reads : List Sds}

theorem Waits.ready (hmax : maxBulk < 2 ^ 63) (hne : bytes ≠ [])
    (h : Waits maxBulk (bytes ++ rest) c args cmds) (hlen : bytes.length ≤ c.readlen) :
    Ready maxBulk rest { c with querybuf := c.querybuf ++ bytes } args cmds := by
  refine { h.toReady with
    reads := ⟨?_, h.reads.count, h.reads.bulk, h.reads.small, ?_⟩
    idle := fun _ hq => absurd (append_eq_nil_iff.1 hq).2 hne }
  · have := h.reads.text
    rw [drop_zero] at this ⊢
    rw [append_assoc]
    exact this
  have hshort := h.short
  show (c.querybuf ++ bytes).length ≤ 49153 ∨ 0 = 0 ∧ ∃ len, c.bulklen = some len ∧
    mbulkBigArg ≤ len ∧ (c.querybuf ++ bytes).length ≤ len + 2
  rw [length_append]
  cases hb : c.bulklen with
  | some len =>
    obtain ⟨o, args', rfl, rfl⟩ := h.reads.bulk len hb
    have hreq : c.reqtype = some .multibulk := by
      rcases h.reqtype with hreq | ⟨_, hnil⟩
      · exact hreq
      · cases hnil
    have hcount : c.multibulklen ≠ 0 := by
      rw [h.reads.count, length_cons]
      omega
    rw [hb, need] at hshort
    simp only [Reader.readlen, hb, hreq, hcount, ne_eq, not_false_eq_true, true_and] at hlen
    by_cases hbig : o.length ≥ mbulkBigArg
    · right
      rw [if_pos hbig] at hlen
      exact ⟨rfl, o.length, rfl, hbig, by omega⟩
    left
    rw [if_neg hbig] at hlen
    unfold mbulkBigArg at hbig
    unfold ioBufLen at hlen
    omega
  | none =>
    left
    have hneed := h.need_le hmax hb
    simp only [Reader.readlen, hb, ioBufLen] at hlen
    omega

theorem Waits.read (processInlineBuffer : Reader → Reader × Bool) (hmax : maxBulk < 2 ^ 63)
    (hne : bytes ≠ []) (h : Waits maxBulk (bytes ++ rest) c args cmds)
    (hlen : bytes.length ≤ c.readlen) :
    ∃ c' out args' cmds', readQueryFromClient processInlineBuffer maxBulk c bytes = .ok (c', out) ∧
      out ++ expected c' args' cmds' = expected c args cmds ∧ Waits maxBulk rest c' args' cmds' :=
  processInput_spec hmax _ (h.ready hmax hne hlen) le_rfl

theorem Waits.readAll (hmax : maxBulk < 2 ^ 63)
    (h : Waits maxBulk (reads.flatten ++ rest) c args cmds)
    (hreads : ReadsFit processInlineBuffer maxBulk c reads) :
    ∃ c' out args' cmds', readAll processInlineBuffer maxBulk c reads = .ok (c', out) ∧
      out ++ expected c' args' cmds' = expected c args cmds ∧ Waits maxBulk rest c' args' cmds' := by
  induction reads generalizing c args cmds with
  | nil => exact ⟨c, [], args, cmds, rfl, rfl, h⟩
  | cons bytes reads ih =>
    rw [flatten_cons, append_assoc] at h
    obtain ⟨c1, out1, args1, cmds1, heq1, hexp1, h1⟩ :=
      h.read processInlineBuffer hmax hreads.1 hreads.2.1
    obtain ⟨c2, out2, args2, cmds2, heq2, hexp2, h2⟩ := ih h1 (hreads.2.2 c1 out1 heq1)
    refine ⟨c2, out1 ++ out2, args2, cmds2, ?_, by rw [append_assoc, hexp2, hexp1], h2⟩
    simp [Input.readAll, heq1, heq2]

theorem Waits.eq_fresh (h : Waits maxBulk [] c args cmds) :
    c = Reader.fresh ∧ expected c args cmds = [] := by
  have htext := congrArg length h.reads.text
  rw [drop_zero, append_nil, length_append] at htext
  have hshort := h.short
  cases hb : c.bulklen with
  | some len =>
    obtain ⟨o, args', rfl, rfl⟩ := h.reads.bulk len hb
    rw [hb] at htext hshort
    simp only [partText, need, crlf, length_append, length_cons, length_nil]
      at htext hshort
    omega
  | none =>
    rw [hb] at htext hshort
    cases args with
    | cons o args =>
      simp only [partText, need, respArg, flatMap_cons, length_append] at htext hshort
      omega
    | nil =>
      cases cmds with
      | cons argv cmds =>
        simp only [partText, need, resp, flatMap_cons, flatMap_nil, length_append]
          at htext hshort
        omega
      | nil =>
        have hnil : c.querybuf = [] := length_eq_zero_iff.1 htext
        have hargv := h.between rfl
        have hreq := h.idle rfl hnil
        have hcount : c.multibulklen = 0 := h.reads.count
        have hreplies := h.replies
        have hclosing := h.closing
        cases c
        simp_all [Reader.fresh, expected]

theorem Waits.fresh (hcmds : ∀ argv ∈ cmds, Accepted maxBulk argv) :
    Waits maxBulk (cmds.flatMap resp) Reader.fresh [] cmds :=
  Ready.waits_of_nil
    { reads := ⟨rfl, rfl, fun len hlen => (by cases hlen), by simp, .inl (by simp [Reader.fresh])⟩
      accepted := hcmds
      between := fun _ => rfl
      reqtype := .inr ⟨rfl, rfl⟩
      idle := fun _ _ => rfl
      replies := rfl
      closing := rfl } rfl

theorem readAll_commands (processInlineBuffer : Reader → Reader × Bool) (hmax : maxBulk < 2 ^ 63)
    (hcmds : ∀ argv ∈ cmds, Accepted maxBulk argv) (hflat : reads.flatten = cmds.flatMap resp)
    (hreads : ReadsFit processInlineBuffer maxBulk Reader.fresh reads) :
    readAll processInlineBuffer maxBulk Reader.fresh reads = .ok (Reader.fresh, cmds) := by
  have h := Waits.fresh hcmds
  rw [← hflat, ← append_nil reads.flatten] at h
  obtain ⟨c, out, args, cmds', heq, hexp, h'⟩ := h.readAll hmax hreads
  obtain ⟨rfl, hnil⟩ := h'.eq_fresh
  rw [hnil, append_nil] at hexp
  rw [heq, hexp]
  rfl

/-- Commands that are delivered in any fragments are read back, and the connection is as before:
the buffer is empty and there was no protocol error. `client-query-buffer-limit`, above which
`readQueryFromClient` closes the connection, is taken to exceed `maxBulk` by more than a read. -/
theorem readAll_resp (processInlineBuffer : Reader → Reader × Bool) (hmax : maxBulk < 2 ^ 63)
    (cmds : List (List Sds))
    (hcmds : ∀ argv ∈ cmds, argv ≠ [] ∧ argv.length ≤ 2 ^ 20 ∧ ∀ o ∈ argv, o.length ≤ maxBulk)
    (reads : List Sds) (hflat : reads.flatten = cmds.flatMap resp)
    (hreads : ReadsFit processInlineBuffer maxBulk Reader.fresh reads) :
    readAll processInlineBuffer maxBulk Reader.fresh reads = .ok (Reader.fresh, cmds) :=
  readAll_commands processInlineBuffer hmax hcmds hflat hreads

/-- Two commands, one of them with the end of a line in an argument; the cuts are inside a number,
inside an argument, and between the two halves of an end of a line. -/
theorem readAll_resp_cuts : readAll (fun c => (c, false)) 512 Reader.fresh
        ["*3\r\n$".toList, "3\r".toList, "\nSET\r\n$1\r\nk\r\n$4\r\na\r".toList,
          "\n\x00\r\n*1\r\n$4\r\nPING".toList, "\r\n".toList] =
      .ok (Reader.fresh, ["SET".toList, "k".toList, "a\r\n\x00".toList] :: [["PING".toList]]) :=
  readAll_resp _ (by decide) _ (by decide +kernel) _ (by decide +kernel) (by decide +kernel)

end Input

end UfsRedis
