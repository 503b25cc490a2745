import UfsRedis.Protocol.Fragments

/-!
# Inline commands

`processInlineBuffer` of `src/networking.c` takes the first line from the query buffer and splits it
with `sdssplitargs` of `src/sds.c`. A line ends with `\n` or with `\r\n`, but the bytes that are
dropped are always counted for `\r\n`. Arguments that are empty are dropped too.
-/

namespace UfsRedis

open List

/-! ## `sdssplitargs` -/

def isspace (c : Char) : Bool :=
  c == ' ' || c == '\t' || c == '\n' || c == '\x0b' || c == '\x0c' || c == '\r'

def isHexDigit (c : Char) : Bool :=
  (decide ('0' ≤ c) && decide (c ≤ '9')) || (decide ('a' ≤ c) && decide (c ≤ 'f')) ||
    (decide ('A' ≤ c) && decide (c ≤ 'F'))

/-- `hex_digit_to_int`, of a digit. -/
def hexDigitToInt (c : Char) : Nat :=
  if c ≤ '9' then c.toNat - '0'.toNat
  else if c ≤ 'F' then c.toNat - 'A'.toNat + 10
  else c.toNat - 'a'.toNat + 10

/-- The character that `\c` stands for in double quotes. -/
def escaped : Char → Char
  | 'n' => '\n'
  | 'r' => '\r'
  | 't' => '\t'
  | 'b' => '\x08'
  | 'a' => '\x07'
  | c => c

/-- Where the scan of an argument is: `inq` and `insq`. -/
inductive Quote where
  | none
  | inq
  | insq
  deriving DecidableEq, Repr

/-- A closing quote must be followed by a space or nothing at all. -/
def closesToken (p : List Char) : Bool := p.head?.all isspace

/-- The scan of one argument, with the characters `current` that it has so far: the argument, and
the rest of the line. `none` is the label `err`. -/
def splitToken (q : Quote) (current : Sds) : List Char → Option (Sds × List Char)
  | [] => if q = .none then some (current, []) else .none
  | c :: p =>
    match q with
    | .none =>
      if c = ' ' ∨ c = '\n' ∨ c = '\r' ∨ c = '\t' then some (current, p)
      else if c = '"' then splitToken .inq current p
      else if c = '\'' then splitToken .insq current p
      else splitToken .none (current ++ [c]) p
    | .inq =>
      if c = '\\' then
        match p with
        | [] => splitToken .inq (current ++ [c]) []
        | e :: p =>
          if e = 'x' ∧ p.head?.any isHexDigit ∧ p.tail.head?.any isHexDigit then
            match p with
            | a :: b :: p =>
              splitToken .inq (current ++ [Char.ofNat (hexDigitToInt a * 16 + hexDigitToInt b)]) p
            | _ => .none
          else splitToken .inq (current ++ [escaped e]) p
      else if c = '"' then if closesToken p then some (current, p) else .none
      else splitToken .inq (current ++ [c]) p
    | .insq =>
      if c = '\\' ∧ p.head? = some '\'' then
        match p with
        | [] => .none
        | _ :: p => splitToken .insq (current ++ ['\'']) p
      else if c = '\'' then if closesToken p then some (current, p) else .none
      else splitToken .insq (current ++ [c]) p
termination_by structural p => p

theorem splitToken_length
    (h : splitToken q current p = some (t, rest)) : rest.length ≤ p.length - 1 := by
  fun_induction splitToken q current p
  all_goals
    simp_all
    try omega

/-- The outer loop of `sdssplitargs`. -/
def splitArgs (p : List Char) : Option (List Sds) :=
  if _ : p.dropWhile isspace = [] then some []
  else
    match _ : splitToken .none [] (p.dropWhile isspace) with
    | none => none
    | some (t, rest) => (splitArgs rest).map (t :: ·)
termination_by p.length
decreasing_by
  have h1 := splitToken_length ‹splitToken _ _ _ = _›
  have h2 := (List.dropWhile_sublist (l := p) isspace).length_le
  have h3 : 0 < (p.dropWhile isspace).length := List.length_pos_iff.mpr ‹_›
  omega

/-- `sdssplitargs`. The line ends at its first NUL. -/
def sdssplitargs (line : Sds) : Option (List Sds) := splitArgs (line.takeWhile (· ≠ '\x00'))

/-! ## `processInlineBuffer` -/

namespace Input

/-- `processInlineBuffer`; the result says whether it is `C_OK`. -/
def processInlineBuffer (c : Reader) : Reader × Bool :=
  match strchr c.querybuf '\n' with
  | none =>
    if c.querybuf.length > inlineMaxSize then
      (setProtocolError c "Protocol error: too big inline request" 0, false)
    else (c, false)
  | some newline =>
    -- the `\r\n` case
    let querylen :=
      if newline ≠ 0 ∧ c.querybuf[newline - 1]? = some '\r' then newline - 1 else newline
    match sdssplitargs (c.querybuf.take querylen) with
    | none => (setProtocolError c "Protocol error: unbalanced quotes in request" 0, false)
    | some argv =>
      ({ c with querybuf := c.querybuf.drop (querylen + 2), argv := argv.filter (· ≠ []) }, true)

/-! ## Lines -/

/-- A line of a query buffer. A `\r` before its `\n` belongs to the end of the line. -/
structure InlineLine where
  text : Sds
  crlf : Bool
  no_lf : '\n' ∉ text
  no_cr : crlf = false → text.getLast? ≠ some '\r'

def InlineLine.bytes (l : InlineLine) : Sds := l.text ++ if l.crlf then ['\r', '\n'] else ['\n']

def linesBytes (lines : List InlineLine) : Sds := lines.flatMap InlineLine.bytes

/-- The lines are read one by one: each call of `processInlineBuffer` gives what `sdssplitargs`
gives for a line alone, and leaves the lines after it. -/
def ReadsLines : Reader → List InlineLine → Prop
  | c, [] => c.querybuf = []
  | c, l :: lines => ∃ c', processInlineBuffer c = (c', true) ∧
    sdssplitargs l.text = some c'.argv ∧ c'.querybuf = linesBytes lines ∧ ReadsLines c' lines

def InlineLine.Plain (l : InlineLine) : Prop :=
  '\x00' ∉ l.text ∧ ∃ argv, sdssplitargs l.text = some argv ∧ [] ∉ argv

variable {c : Reader} {l : InlineLine} {lines : List InlineLine} {rest : Sds}

theorem InlineLine.bytes_ne_nil (l : InlineLine) : l.bytes ≠ [] := by
  unfold InlineLine.bytes
  cases l.crlf <;> simp

theorem linesBytes_eq_nil : linesBytes lines = [] ↔ lines = [] := by
  cases lines with
  | nil => simp [linesBytes]
  | cons l lines => simp [linesBytes, l.bytes_ne_nil]

theorem strchr_line_nul (h : '\x00' ∈ l.text) : strchr (l.bytes ++ rest) '\n' = none := by
  have hlen : (l.text.takeWhile (· ≠ '\x00')).length ≠ l.text.length := by
    intro hlen
    have hself := ( takeWhile_prefix (· ≠ '\x00')).eq_of_length hlen
    have hall := all_takeWhile (p := (· ≠ '\x00')) (l := l.text)
    rw [hself] at hall
    simpa using all_eq_true.mp hall _ h
  unfold strchr InlineLine.bytes
  rw [append_assoc, takeWhile_append, if_neg hlen, findIdx?_eq_none_iff]
  intro x hx
  have hmem := (takeWhile_sublist _).subset hx
  have hne : x ≠ '\n' := fun e => l.no_lf (e ▸ hmem)
  simpa using hne

theorem strchr_line (h : '\x00' ∉ l.text) :
    strchr (l.bytes ++ rest) '\n' = some (l.text.length + if l.crlf then 1 else 0) := by
  have hword : ∀ x ∈ l.text, x ≠ '\x00' ∧ x ≠ '\n' := fun x hx =>
    ⟨fun e => h (e ▸ hx), fun e => l.no_lf (e ▸ hx)⟩
  rcases hc : l.crlf with _ | _
  · rw [InlineLine.bytes, hc, append_assoc]
    exact strchr_append hword (by decide)
  have hsplit : l.bytes ++ rest = (l.text ++ ['\r']) ++ '\n' :: rest := by
    simp [InlineLine.bytes, hc]
  have hword' : ∀ x ∈ l.text ++ ['\r'], x ≠ '\x00' ∧ x ≠ '\n' := by
    intro x hx
    rcases mem_append.mp hx with hx | hx
    · exact hword x hx
    rw [mem_singleton.mp hx]
    decide
  rw [hsplit, strchr_append hword' (by decide)]
  simp

theorem querylen_line (l : InlineLine) (rest : Sds) :
    (if (l.text.length + if l.crlf then 1 else 0) ≠ 0 ∧
        (l.bytes ++ rest)[(l.text.length + if l.crlf then 1 else 0) - 1]? = some '\r' then
      (l.text.length + if l.crlf then 1 else 0) - 1
    else l.text.length + if l.crlf then 1 else 0) = l.text.length := by
  cases hc : l.crlf with
  | true => simp [InlineLine.bytes, hc]
  | false =>
    have hlast := l.no_cr hc
    refine if_neg fun ⟨hne, hcr⟩ => hlast ?_
    simp only [Bool.false_eq_true, if_false, Nat.add_zero, InlineLine.bytes, hc,
      append_assoc] at hne hcr
    rw [getElem?_append_left (by omega)] at hcr
    rwa [getLast?_eq_getElem?]

/-- **One call on a buffer that starts with a line.** After a line that ends with `\n` alone, the
first byte behind it is dropped too. -/
theorem processInlineBuffer_line (hbuf : c.querybuf = l.bytes ++ rest) (h : '\x00' ∉ l.text) :
    processInlineBuffer c = (sdssplitargs l.text).elim
        (setProtocolError c "Protocol error: unbalanced quotes in request" 0, false)
        fun argv => ({ c with
          querybuf := rest.drop (if l.crlf then 0 else 1)
          argv := argv.filter (· ≠ []) }, true) := by
  have htake : (l.bytes ++ rest).take l.text.length = l.text := by
    rw [InlineLine.bytes, append_assoc, take_left]
  have hdrop : (l.bytes ++ rest).drop (l.text.length + 2) = rest.drop (if l.crlf then 0 else 1) := by
    rw [InlineLine.bytes, append_assoc, drop_length_add_append]
    cases l.crlf <;> rfl
  unfold processInlineBuffer
  rw [hbuf, strchr_line h]
  simp only [querylen_line, htake, hdrop]
  cases sdssplitargs l.text <;> rfl

theorem processInlineBuffer_nul (hbuf : c.querybuf = l.bytes ++ rest) (h : '\x00' ∈ l.text) :
    (processInlineBuffer c).2 = false := by
  unfold processInlineBuffer
  rw [hbuf, strchr_line_nul h]
  dsimp only
  split <;> rfl

theorem filter_ne_nil_eq {argv : List Sds} : argv.filter (· ≠ []) = argv ↔ [] ∉ argv := by
  rw [filter_eq_self]
  constructor
  · intro h hmem
    simpa using h [] hmem
  intro h x hx
  have hne : x ≠ [] := fun e => h (e ▸ hx)
  simpa using hne

theorem readsLines_cons (hbuf : c.querybuf = linesBytes (l :: lines)) :
    ReadsLines c (l :: lines) ↔ l.Plain ∧ (lines ≠ [] → l.crlf = true) ∧
      ∃ c', c'.querybuf = linesBytes lines ∧ processInlineBuffer c = (c', true) ∧
        ReadsLines c' lines := by
  have hbuf' : c.querybuf = l.bytes ++ linesBytes lines := hbuf
  constructor
  · rintro ⟨c', hc', hargs, hrest, hreads⟩
    have hnul : '\x00' ∉ l.text := by
      intro hnul
      have := processInlineBuffer_nul hbuf' hnul
      rw [hc'] at this
      cases this
    have hcall := processInlineBuffer_line hbuf' hnul
    rw [hc', hargs] at hcall
    obtain ⟨hcall, -⟩ := Prod.mk.inj hcall
    have hargv : c'.argv.filter (· ≠ []) = c'.argv := (congrArg Reader.argv hcall).symm
    have hquery : linesBytes lines = (linesBytes lines).drop (if l.crlf then 0 else 1) :=
      hrest.symm.trans (congrArg Reader.querybuf hcall)
    refine ⟨⟨hnul, _, hargs, filter_ne_nil_eq.mp hargv⟩, fun hne => ?_, c', hrest, hc', hreads⟩
    by_contra hcr
    rw [if_neg hcr] at hquery
    have hlen := congrArg List.length hquery
    rw [length_drop] at hlen
    have hpos : 0 < (linesBytes lines).length :=
      length_pos_iff.mpr fun h => hne (linesBytes_eq_nil.mp h)
    omega
  rintro ⟨⟨hnul, argv, hargs, hne⟩, -, c', hrest, hc', hreads⟩
  refine ⟨c', hc', ?_, hrest, hreads⟩
  have hcall := processInlineBuffer_line hbuf' hnul
  rw [hc', hargs] at hcall
  obtain ⟨rfl, -⟩ := Prod.mk.inj hcall
  rw [hargs]
  exact congrArg some (filter_ne_nil_eq.mpr hne).symm

/-- **Pipelined lines are read one by one** iff every line before the last one ends with `\r\n`, no
line has a NUL, and `sdssplitargs` gives arguments for every line, none of them empty. -/
theorem reads_lines_iff (hbuf : c.querybuf = linesBytes lines) :
    ReadsLines c lines ↔ (∀ l ∈ lines, l.Plain) ∧ ∀ l ∈ lines.dropLast, l.crlf = true := by
  induction lines generalizing c with
  | nil => simpa [ReadsLines, linesBytes] using hbuf
  | cons l lines ih =>
    have hdrop : (∀ x ∈ (l :: lines).dropLast, x.crlf = true) ↔
        (lines ≠ [] → l.crlf = true) ∧ ∀ x ∈ lines.dropLast, x.crlf = true := by
      cases lines <;> simp
    rw [readsLines_cons hbuf, hdrop, forall_mem_cons]
    constructor
    · rintro ⟨hplain, hcr, c', hrest, -, hreads⟩
      obtain ⟨hall, hcrs⟩ := (ih hrest).mp hreads
      exact ⟨⟨hplain, hall⟩, hcr, hcrs⟩
    rintro ⟨⟨hplain, hall⟩, hcr, hcrs⟩
    have ⟨hnul, argv, hargs, _⟩ := hplain
    have hcall := @processInlineBuffer_line _ _ (linesBytes lines) hbuf hnul
    rw [hargs] at hcall
    have hrest : (linesBytes lines).drop (if l.crlf then 0 else 1) = linesBytes lines := by
      by_cases hne : lines = []
      · rw [linesBytes_eq_nil.mpr hne, drop_nil]
      rw [hcr hne]
      rfl
    exact ⟨hplain, hcr, _, hrest, hcall, (ih hrest).mpr ⟨hall, hcrs⟩⟩

/-- `echo a` with either end. -/
def echoLine (crlf : Bool) : InlineLine :=
  ⟨['e', 'c', 'h', 'o', ' ', 'a'], crlf, by decide, fun _ => by decide⟩

theorem sdssplitargs_echo :
    sdssplitargs ['e', 'c', 'h', 'o', ' ', 'a'] = some [['e', 'c', 'h', 'o'], ['a']] := by
  decide +kernel

/-- Two lines of which only the last one may end with `\n` alone. -/
theorem reads_lines_iff_last_lf :
    ReadsLines { Reader.fresh with querybuf := linesBytes [echoLine true, echoLine false] }
      [echoLine true, echoLine false] := by
  have hplain : ∀ b, (echoLine b).Plain := fun b =>
    ⟨by cases b <;> decide, _, sdssplitargs_echo, by decide⟩
  refine (reads_lines_iff rfl).mpr ⟨fun l hl => ?_, fun l hl => ?_⟩
  · rcases mem_cons.mp hl with rfl | hl
    · exact hplain true
    rw [mem_singleton.mp hl]
    exact hplain false
  rw [mem_singleton.mp hl]
  rfl

/-- After `echo a\n`, the next call finds `cho a\n`. -/
theorem reads_lines_loses_byte : (processInlineBuffer
      { Reader.fresh with querybuf := linesBytes [echoLine false, echoLine false] }).1.querybuf =
        ['c', 'h', 'o', ' ', 'a', '\n'] ∧
    ¬ ReadsLines { Reader.fresh with querybuf := linesBytes [echoLine false, echoLine false] }
      [echoLine false, echoLine false] := by
  have hcall := @processInlineBuffer_line
    ({ Reader.fresh with querybuf := linesBytes [echoLine false, echoLine false] }) (echoLine false)
    (linesBytes [echoLine false]) rfl (by decide)
  rw [show sdssplitargs (echoLine false).text = _ from sdssplitargs_echo] at hcall
  refine ⟨by rw [hcall]; rfl, ?_⟩
  rintro ⟨c', hc', -, hrest, -⟩
  rw [hcall] at hc'
  obtain ⟨rfl, -⟩ := Prod.mk.inj hc'
  exact absurd hrest (by decide)

end Input

end UfsRedis
