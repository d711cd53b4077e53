import Rilua.Compiler.LexerStream
import Rilua.Stdlib.Format

/-! What `string.format` writes for `%q` is read back by the lexer: one string token with the same bytes, and the end of
    the input. -/

namespace Rilua.Compiler

open Lib Vm
open Stdlib (ch isAsciiDigit CharClasses quoteByte quoted)

/-- The lexer has its whole input in the buffer, `rest` is what is left of it, and nothing is pending. -/
structure LexerState.At (rest : List UInt8) (w : LexerState) : Prop where
  reader : w.reader = none
  idle : w.readerExhausted = false
  left : w.source.drop w.pos = rest
  fresh : w.lookahead = none
  quiet : w.readerError = none

open LexerState

theorem LexerState.At.whole {rest : List UInt8} {w : LexerState} (h : At rest w) : w.whole = w := by
  obtain ⟨source, pos, line, column, sourceName, lookahead, lastTokenText, reader, readerError, exhausted⟩ := w
  obtain rfl : reader = none := h.reader
  obtain rfl : exhausted = false := h.idle
  simp [LexerState.whole, LexerState.ahead]

/-- With `rest` left, `x` returns a value that satisfies `Q`, and leaves `rest'`. -/
def Consumes {α : Type} (rest : List UInt8) (x : LexM α) (Q : α → Prop) (rest' : List UInt8) : Prop :=
  Lockstep Eq (fun _ => False) (At rest) x x fun a w => Q a ∧ At rest' w

namespace Consumes

variable {α β : Type} {rest rest' rest'' : List UInt8} {Q : α → Prop} {Q' : β → Prop} {x : LexM α} {f : α → LexM β}

theorem bind (hx : Consumes rest x Q rest') (hf : ∀ a, Q a → Consumes rest' (f a) Q' rest'') :
    Consumes rest (x >>= f) Q' rest'' :=
  Lockstep.bind hx fun a => .of_pre (fun _ h => h.1) fun ha => (hf a ha).pre fun _ h => h.2

theorem pure {a : α} (ha : Q a) : Consumes rest (Pure.pure a) Q rest := Lockstep.pure a fun _ h => ⟨ha, h⟩

theorem run (h : Consumes rest x Q rest') {w : LexerState} (hw : At rest w) :
    ∃ a w', x w = .ok a w' ∧ Q a ∧ At rest' w' := by
  have hout := h w w rfl hw
  generalize hr : x w = r at hout
  cases hout with
  | ok hrel hpost => exact ⟨_, _, rfl, hpost⟩
  | error hrel herr => exact herr.elim

theorem of_run (h : ∀ w, At rest w → ∃ a w', x w = .ok a w' ∧ Q a ∧ At rest' w') : Consumes rest x Q rest' := by
  rintro w _ rfl hw
  obtain ⟨a, w', hx, hpost⟩ := h w hw
  rw [hx]
  exact .ok rfl hpost

end Consumes

namespace LexM

variable {c : UInt8} {rest : List UInt8}

/-! ### Characters -/

theorem getElem?_of_at {w : LexerState} (h : At rest w) : w.source[w.pos]? = rest.head? := by
  rw [← h.left, List.head?_drop]

theorem reads_peek : Consumes rest peek (· = rest.head?) rest := by
  refine .of_run fun w hw => ⟨_, w, ?_, rfl, hw⟩
  have := peek_whole w
  rwa [hw.whole, getElem?_of_at hw] at this

/-- The byte that is next is known. -/
theorem reads_peek_cons : Consumes (c :: rest) peek (· = some c) (c :: rest) := reads_peek

theorem at_tail {w : LexerState} (h : At (c :: rest) w) (line column : ℕ) :
    At rest { w with pos := w.pos + 1, line, column } := by
  refine ⟨h.reader, h.idle, ?_, h.fresh, h.quiet⟩
  change w.source.drop (w.pos + 1) = rest
  rw [← List.tail_drop, h.left, List.tail_cons]

theorem reads_advance (hc : isNewline c = false) : Consumes (c :: rest) advance (fun _ => True) rest := by
  refine .of_run fun w hw => ⟨_, _, advance_of_whole hw.whole (getElem?_of_at hw) hc, trivial, at_tail hw _ _⟩

theorem reads_skip_newline : Consumes (c :: rest) (skip 1 0) (fun _ => True) rest :=
  .of_run fun w hw => ⟨(), _, rfl, trivial, at_tail hw w.line (w.column + 0)⟩

/-- A newline that no carriage return follows. -/
theorem reads_incLine (hrest : rest.head? ≠ some 13) : Consumes (10 :: rest) incLine (fun _ => True) rest := by
  have hsecond : Consumes rest (skipSecond 10) (fun _ => True) rest := by
    refine .bind reads_peek fun c hc => ?_
    cases c with
    | none => exact .pure trivial
    | some c =>
      have hone : ¬ (isNewline c ∧ c ≠ 10) := by
        rintro ⟨hnl, hne⟩
        rw [isNewline, Bool.or_eq_true, decide_eq_true_iff, decide_eq_true_iff] at hnl
        rcases hnl with rfl | rfl
        · exact hne rfl
        · exact hrest hc.symm
      change Consumes rest (if isNewline c ∧ c ≠ 10 then skip 1 0 else Pure.pure ()) _ rest
      rw [if_neg hone]
      exact .pure trivial
  refine .bind reads_peek_cons fun old hold => ?_
  rw [hold, Option.getD_some]
  refine .bind reads_skip_newline fun _ _ => .bind hsecond fun _ _ => ?_
  exact .of_run fun w hw => ⟨(), _, rfl, trivial, hw.reader, hw.idle, hw.left, hw.fresh, hw.quiet⟩

/-! ### Escapes -/

/-- A zero that is written with three digits. -/
theorem reads_readDecimalEscape : Consumes (ch '0' :: ch '0' :: ch '0' :: rest) readDecimalEscape (· = 0) rest := by
  have hdigit (n : ℕ) (t t' : List UInt8) (h : Consumes t (decimalDigits n 0) (· = 0) t') :
      Consumes (ch '0' :: t) (decimalDigits (n + 1) 0) (· = 0) t' := by
    refine .bind reads_peek_cons fun d hd => ?_
    rw [hd]
    exact .bind (reads_advance (by decide)) fun _ _ => h
  refine .bind (hdigit _ _ _ (hdigit _ _ _ (hdigit _ _ _ (.pure rfl)))) fun val hval => ?_
  rw [hval]
  exact .pure rfl

/-- Behind a backslash, `esc` denotes `b`. -/
def Escapes (esc : List UInt8) (b : UInt8) : Prop :=
  ∀ rest : List UInt8, rest.head? ≠ some 13 → Consumes (esc ++ rest) readShortStringEscape (· = [b]) rest

theorem escapes_newline : Escapes [10] 10 := by
  refine fun rest hrest => .bind reads_peek_cons fun c hc => ?_
  rw [hc]
  exact .bind (reads_incLine hrest) fun _ _ => .pure rfl

theorem escapes_zero : Escapes [ch '0', ch '0', ch '0'] 0 := by
  refine fun rest hrest => .bind reads_peek_cons fun c hc => ?_
  rw [hc]
  refine .bind reads_readDecimalEscape fun b hb => ?_
  rw [hb]
  exact .pure rfl

/-- Another byte behind a backslash stands for one byte. -/
theorem escapes_single {c : UInt8} (hc : c ≠ ch 'x' ∧ c ≠ ch 'u' ∧ isNewline c = false ∧ isAsciiDigit c = false) :
    Escapes [c] (singleByteEscape c) := by
  refine fun rest hrest => .bind reads_peek_cons fun d hd => ?_
  rw [hd]
  change Consumes _ (if c = ch 'x' then _ else if c = ch 'u' then _ else if isNewline c then _ else if isAsciiDigit c then _
    else _) _ _
  rw [if_neg hc.1, if_neg hc.2.1, hc.2.2.1, if_neg Bool.false_ne_true, hc.2.2.2, if_neg Bool.false_ne_true]
  exact .bind (reads_advance hc.2.2.1) fun _ _ => .pure rfl

/-! ### The string -/

/-- A byte is written as it is, or with a backslash. -/
theorem quoteByte_cases (b : UInt8) :
    (quoteByte b = [b] ∧ isNewline b = false ∧ b ≠ 34 ∧ b ≠ 92) ∨ ∃ esc, quoteByte b = 92 :: esc ∧ Escapes esc b := by
  rw [quoteByte]
  split
  · next h => exact .inr ⟨[92], rfl, by rw [h]; exact escapes_single (c := 92) (by decide)⟩
  · next h92 =>
    split
    · next h => exact .inr ⟨[34], rfl, by rw [h]; exact escapes_single (c := 34) (by decide)⟩
    · next h34 =>
      split
      · next h => exact .inr ⟨[10], rfl, h ▸ escapes_newline⟩
      · next h10 =>
        split
        · next h => exact .inr ⟨[ch 'r'], rfl, by rw [h]; exact escapes_single (c := ch 'r') (by decide)⟩
        · next h13 =>
          split
          · next h => exact .inr ⟨_, rfl, h ▸ escapes_zero⟩
          · exact .inl ⟨rfl, by simp [isNewline, h10, h13], h34, h92⟩

/-- The rest of a quoted string does not start with a carriage return. -/
theorem head?_quoted (t tail : List UInt8) : (t.flatMap quoteByte ++ 34 :: tail).head? ≠ some 13 := by
  cases t with
  | nil => exact fun h => absurd (Option.some.inj h) (by decide)
  | cons b t =>
    rw [List.flatMap_cons]
    rcases quoteByte_cases b with ⟨hraw, hnl, -, -⟩ | ⟨esc, hesc, -⟩
    · rw [hraw]
      intro h
      rw [Option.some.inj h] at hnl
      exact absurd hnl (by decide)
    · rw [hesc]
      exact fun h => absurd (Option.some.inj h) (by decide)

theorem length_le_flatMap_quoteByte (t : List UInt8) : t.length ≤ (t.flatMap quoteByte).length := by
  induction t with
  | nil => exact Nat.le_refl _
  | cons b t ih =>
    have hone : 1 ≤ (quoteByte b).length := by
      rcases quoteByte_cases b with ⟨hraw, -⟩ | ⟨esc, hesc, -⟩
      · rw [hraw]
        exact Nat.le_refl 1
      · rw [hesc]
        exact Nat.le_add_left 1 esc.length
    rw [List.flatMap_cons, List.length_append, List.length_cons]
    omega

theorem left_of_at {w : LexerState} {rest : List UInt8} (h : At rest w) : w.left = rest.length := by
  rw [LexerState.left, ahead, h.reader, ← h.left, List.length_drop]
  rfl

theorem reads_readShortString (s tail : List UInt8) : Consumes (quoted s ++ tail) (readShortString 34) (· = s) tail := by
  have hquoted : quoted s ++ tail = 34 :: (s.flatMap quoteByte ++ 34 :: tail) := by simp [quoted]
  rw [hquoted]
  refine .bind (reads_advance (by decide)) fun _ _ => ?_
  refine Lockstep.bind (M := fun fuel w => s.length < fuel ∧ At (s.flatMap quoteByte ++ 34 :: tail) w) (.observe ?_)
    fun fuel => ?_
  · rintro w _ rfl hw
    refine ⟨rfl, ?_, hw⟩
    have := length_le_flatMap_quoteByte s
    rw [left_of_at hw, List.length_append]
    omega
  · -- What has been read and what is left make up `s`; each round reads a byte of it.
    refine (Lockstep.repeatFor (I := fun n buf w => ∃ t, s = buf ++ t ∧ t.length < n ∧
      At (t.flatMap quoteByte ++ 34 :: tail) w) ?_ ?_ fuel []).pre fun w hw => ⟨s, rfl, hw⟩
    · rintro buf w ⟨t, -, hlen, -⟩
      exact Nat.not_lt_zero _ hlen
    · rintro n buf w _ rfl ⟨t, hs, hlen, hat⟩
      cases t with
      | nil =>
        refine Lockstep.post (?_ : Consumes (34 :: tail) _ (· = Sum.inr buf) tail) ?_ w w rfl hat
        · refine .bind reads_peek_cons fun c hc => ?_
          rw [hc]
          exact .bind (reads_advance (by decide)) fun _ _ => .pure rfl
        · rintro r w ⟨rfl, hw⟩
          exact ⟨by rw [hs, List.append_nil], hw⟩
      | cons b t =>
        rw [List.flatMap_cons, List.append_assoc] at hat
        refine Lockstep.post (?_ : Consumes (quoteByte b ++ (t.flatMap quoteByte ++ 34 :: tail)) _
          (· = Sum.inl (buf ++ [b])) (t.flatMap quoteByte ++ 34 :: tail)) ?_ w w rfl hat
        · rcases quoteByte_cases b with ⟨hraw, hnl, h34, h92⟩ | ⟨esc, hesc, hdenotes⟩
          · rw [hraw]
            refine .bind reads_peek_cons fun c hc => ?_
            rw [hc]
            change Consumes _ (if isNewline b then _ else if b = 34 then _ else if b = 92 then _ else _) _ _
            rw [hnl, if_neg Bool.false_ne_true, if_neg h34, if_neg h92]
            exact .bind (reads_advance hnl) fun _ _ => .pure rfl
          · rw [hesc]
            refine .bind reads_peek_cons fun c hc => ?_
            rw [hc]
            refine .bind (reads_advance (by decide)) fun _ _ => ?_
            refine .bind (hdenotes _ (head?_quoted t tail)) fun bytes hbytes => ?_
            rw [hbytes]
            exact .pure rfl
        · rintro r w ⟨rfl, hw⟩
          refine ⟨t, ?_, Nat.lt_of_succ_lt_succ hlen, hw⟩
          rw [hs, List.append_assoc, List.singleton_append]

/-! ### The tokens -/

/-- Nothing is skipped in front of a byte that is not blank. -/
theorem reads_skipWhitespace {rest : List UInt8} (h : ∀ c, rest.head? = some c → isBlank c = false) :
    Consumes rest skipWhitespace (fun _ => True) rest := by
  refine .of_run fun w hw => ⟨(), w, ?_, trivial, hw⟩
  have htake : (w.source.drop w.pos).takeWhile isBlank = [] := by
    rw [hw.left]
    cases rest with
    | nil => rfl
    | cons c rest =>
      have hc := h c rfl
      rw [List.takeWhile_cons_of_neg (by rw [hc]; exact Bool.false_ne_true)]
  have hfast : skipWhitespace w = advanceWhole isBlank w := by
    rw [skipWhitespace, advanceFast, observe_bind, hw.reader]
    rfl
  rw [hfast, advanceWhole, observe_bind, htake]
  rfl

theorem reads_raiseReaderError {rest : List UInt8} : Consumes rest raiseReaderError (fun _ => True) rest := by
  refine .of_run fun w hw => ⟨(), w, ?_, trivial, hw⟩
  rw [raiseReaderError, observe_bind, hw.quiet]
  rfl

theorem reads_observe {α : Type} {rest : List UInt8} (f : LexerState → α) :
    Consumes rest (observe f) (fun _ => True) rest := .of_run fun w hw => ⟨f w, w, rfl, trivial, hw⟩

theorem reads_saveTokenText {rest : List UInt8} (start : ℕ) : Consumes rest (saveTokenText start) (fun _ => True) rest :=
  .of_run fun _ hw => ⟨(), _, rfl, trivial, hw.reader, hw.idle, hw.left, hw.fresh, hw.quiet⟩

variable (num : Numerals)

/-- The next token is found in one round. -/
theorem reads_next {rest rest' : List UInt8} {t : Token}
    (hround : Consumes rest (scanRound num) (fun r => ∃ span, r = .inr (t, span)) rest') :
    Consumes rest (next num) (fun r => r.1 = t) rest' := by
  refine .of_run fun w hw => ?_
  obtain ⟨r, w', hrun, ⟨span, rfl⟩, hw'⟩ := hround.run hw
  refine ⟨(t, span), w', ?_, rfl, hw'⟩
  rw [next, observe_bind, hw.fresh]
  change scan num w = _
  rw [scan, loop, observe_bind, repeatFor, bind_of_done hrun]
  rfl

theorem reads_next_quoted (s tail : List UInt8) : Consumes (quoted s ++ tail) (next num) (fun r => r.1 = .str s) tail := by
  refine reads_next num ?_
  have hquote : (quoted s ++ tail).head? = some 34 := rfl
  have hblank : ∀ c, (quoted s ++ tail).head? = some c → isBlank c = false := by
    intro c hc
    obtain rfl : 34 = c := Option.some.inj hc
    decide
  refine .bind reads_raiseReaderError fun _ _ => .bind (reads_skipWhitespace hblank) fun _ _ => ?_
  refine .bind reads_raiseReaderError fun _ _ => .bind (reads_observe _) fun span _ => .bind (reads_observe _) fun start _ => ?_
  refine .bind reads_peek fun c hc => ?_
  rw [hc, hquote]
  have htoken : Consumes (quoted s ++ tail) (scanFrom num 34 start) (· = some (.str s)) tail := by
    refine .bind (reads_readShortString s tail) fun r hr => .bind (reads_saveTokenText start) fun _ _ => ?_
    rw [hr]
    exact .pure rfl
  refine .bind htoken fun t ht => ?_
  rw [ht]
  exact .pure ⟨span, rfl⟩

theorem reads_next_eos : Consumes [] (next num) (fun r => r.1 = .eos) [] := by
  refine reads_next num ?_
  refine .bind reads_raiseReaderError fun _ _ => .bind (reads_skipWhitespace fun c hc => nomatch hc) fun _ _ => ?_
  refine .bind reads_raiseReaderError fun _ _ => .bind (reads_observe _) fun span _ => .bind (reads_observe _) fun start _ => ?_
  refine .bind reads_peek fun c hc => ?_
  rw [hc]
  exact .bind reads_raiseReaderError fun _ _ => .pure ⟨span, rfl⟩

end LexM

theorem at_new (source : List UInt8) (sourceName : String) (h : source.head? ≠ some (ch '#')) :
    At source (LexerState.new source sourceName) := by
  rw [LexerState.new, if_neg h]
  exact ⟨rfl, rfl, rfl, rfl, rfl⟩

/-- What `string.format` writes for `%q` is one string token with the same bytes, and nothing more. -/
theorem reports_quoted (host : Stdlib.StringHost) (formatFloat : List UInt8 → F64 → Option (List UInt8))
    (num : Numerals) (sourceName : String) (s : List UInt8) :
    ∃ text, Stdlib.strFormat host formatFloat [.str [ch '%', ch 'q'], .str s] = .ok (text, false) ∧
      ((LexerState.new text sourceName).reports num [.next, .next]).map (fun r => r.answer.map (·.1)) =
        [.ok (.str s), .ok .eos] := by
  refine ⟨quoted s, ?_, ?_⟩
  · have hspec : Stdlib.FormatSpec.WellFormed ⟨[], [], none⟩ := Stdlib.wellFormed_scanSpec []
    have hstops : Stdlib.Stops (ch 'q') := ⟨by decide, by decide, by decide⟩
    have hend : Stdlib.formatLoop host formatFloat [.str [ch '%', ch 'q'], .str s] [] 2 (quoted s) = .ok (quoted s) := by
      rw [Stdlib.formatLoop]
    have htext : Stdlib.formatLoop host formatFloat [.str [ch '%', ch 'q'], .str s] [ch '%', ch 'q'] 1 [] =
        .ok (quoted s) :=
      (Stdlib.formatLoop_spec hspec hstops (by decide) [.str [ch '%', ch 'q'], .str s] 1 [] []).trans hend
    change (Stdlib.formatLoop host formatFloat [.str [ch '%', ch 'q'], .str s] [ch '%', ch 'q'] 1 []).map _ = _
    rw [htext]
    rfl
  · have hnew := at_new (quoted s) sourceName (fun h => absurd (Option.some.inj h) (by decide))
    have hstring := LexM.reads_next_quoted num s []
    rw [List.append_nil] at hstring
    obtain ⟨⟨t, span⟩, w, hnext, rfl, hw⟩ := hstring.run hnew
    obtain ⟨⟨t', span'⟩, w', hnext', rfl, hw'⟩ := (LexM.reads_next_eos num).run hw
    have hfirst : LexM.perform num .next (LexerState.new (quoted s) sourceName) = .ok (.str s, some span) w :=
      bind_of_done hnext
    have hsecond : LexM.perform num .next w = .ok (.eos, some span') w' := bind_of_done hnext'
    rw [LexerState.reports, hfirst]
    simp only [LexerState.reports, hsecond]
    rfl

end Rilua.Compiler
