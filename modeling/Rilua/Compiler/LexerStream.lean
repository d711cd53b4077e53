import Rilua.Compiler.Lexer
import Mathlib.Data.List.Basic

/-! Lexing a stream is lexing the whole buffer. A lexer whose reader still has bytes to deliver goes in lockstep
    with the lexer that has them all in its buffer. -/

namespace Rilua.Compiler

open Lib Vm
open Stdlib (ch isAsciiDigit CharClasses)

/-- A reader that delivers these chunks. -/
def chunkReader (chunks : List (List UInt8)) : List ReaderAnswer := chunks.map fun c => .ok (some c)

namespace LexerState

/-- The lexer with everything that its reader will deliver in the buffer. -/
def whole (s : LexerState) : LexerState :=
  { s with source := s.source ++ s.ahead, reader := none, readerExhausted := false }

/-- The reader delivers chunks that are not empty until it is exhausted, and has not failed. -/
structure Fed (s : LexerState) : Prop where
  chunks : ∃ cs, s.reader = some (chunkReader cs) ∧ (∀ c ∈ cs, c ≠ []) ∧ (s.readerExhausted = true → cs = [])
  quiet : s.readerError = none
  inside : s.pos ≤ s.source.length

/-- `k` bytes are in the buffer, and fewer than `n` are left. -/
structure Ahead (k n : ℕ) (s : LexerState) : Prop where
  buffered : s.pos + k ≤ s.source.length
  enough : s.left < n

theorem ahead_of_reader {s : LexerState} {cs : List (List UInt8)} (h : s.reader = some (chunkReader cs)) :
    s.ahead = cs.flatten := by
  rw [ahead, h, Option.getD_some, chunkReader, List.flatMap_map]
  exact List.flatMap_id

@[simp] theorem left_whole (s : LexerState) : s.whole.left = s.left := by
  simp only [left, whole, ahead, Option.getD_none, List.flatMap_nil, List.length_nil, List.length_append, Nat.add_zero]

/-- What is in the buffer is in the whole buffer. -/
theorem getElem?_whole {s : LexerState} {i : ℕ} (h : i < s.source.length) : s.whole.source[i]? = s.source[i]? :=
  List.getElem?_append_left h

theorem Fed.lexeme {s : LexerState} (h : s.Fed) (start : ℕ) : s.whole.lexeme start = s.lexeme start := by
  have htake : (s.source ++ s.ahead).take s.pos = s.source.take s.pos := List.take_append_of_le_length h.inside
  simp only [LexerState.lexeme, whole, htake]

/-- `s'` has at least as much in the buffer as `s`, and goes on like `s`. -/
structure Later (s s' : LexerState) : Prop where
  fed : s'.Fed
  whole : s'.whole = s.whole
  grown : s.source.length ≤ s'.source.length

theorem Fed.later {s : LexerState} (h : s.Fed) : Later s s := ⟨h, rfl, Nat.le_refl _⟩

theorem Later.trans {s s₁ s₂ : LexerState} (h : Later s s₁) (h' : Later s₁ s₂) : Later s s₂ :=
  ⟨h'.fed, h'.whole.trans h.whole, Nat.le_trans h.grown h'.grown⟩

theorem Later.pos {s s' : LexerState} (h : Later s s') : s'.pos = s.pos := congrArg (fun s => s.pos) h.whole

theorem Later.ahead {s s' : LexerState} {k n : ℕ} (h : Later s s') (ha : Ahead k n s) : Ahead k n s' := by
  refine ⟨?_, ?_⟩
  · rw [h.pos]
    exact Nat.le_trans ha.buffered h.grown
  · rw [← left_whole, h.whole, left_whole]
    exact ha.enough

/-- What a call of `refill` does to a lexer that is fed. -/
structure Refilled (s : LexerState) (more : Bool) (s' : LexerState) : Prop extends Later s s' where
  gained : more = true → s.source.length < s'.source.length
  dry : more = false → s.ahead = []

theorem Fed.refill {s : LexerState} (h : s.Fed) : Refilled s s.refill.1 s.refill.2 := by
  obtain ⟨cs, hreader, hne, hcs⟩ := h.chunks
  have hahead := ahead_of_reader hreader
  rw [LexerState.refill]
  split
  · rename_i hexh
    exact ⟨h.later, fun hm => absurd hm Bool.false_ne_true, fun _ => by rw [hahead, hcs hexh, List.flatten_nil]⟩
  · rename_i hexh
    rw [hreader]
    cases cs with
    | nil =>
      refine ⟨⟨⟨⟨[], rfl, fun _ hc => absurd hc List.not_mem_nil, fun _ => rfl⟩, h.quiet, h.inside⟩, ?_, Nat.le_refl _⟩,
        fun hm => absurd hm Bool.false_ne_true, fun _ => hahead⟩
      simp only [LexerState.whole, hahead]
      rfl
    | cons c cs =>
      have hc : c ≠ [] := hne c List.mem_cons_self
      have hlen : 0 < c.length := List.length_pos_iff.mpr hc
      simp only [chunkReader, List.map_cons, List.tail_cons, List.headD_cons, if_neg hc]
      have hgrown : s.source.length < (s.source ++ c).length := by
        rw [List.length_append]
        omega
      refine ⟨⟨⟨⟨cs, rfl, fun d hd => hne d (List.mem_cons_of_mem c hd), fun he => absurd he hexh⟩, h.quiet, ?_⟩, ?_, ?_⟩,
        fun _ => hgrown, fun hm => absurd hm (by decide)⟩
      · exact Nat.le_trans h.inside (Nat.le_of_lt hgrown)
      · have hrest : LexerState.ahead { s with source := s.source ++ c, reader := some (chunkReader cs) } = cs.flatten :=
          ahead_of_reader rfl
        simp only [LexerState.whole, hahead, List.flatten_cons, ← List.append_assoc]
        congr 1
        rw [← hrest]
        rfl
      · exact Nat.le_of_lt hgrown

/-- Where nothing is ahead any more, the buffer is the whole buffer. -/
theorem source_of_dry {s : LexerState} (h : s.ahead = []) : s.whole.source = s.source := by
  rw [whole, h, List.append_nil]

theorem Ahead.mono {s : LexerState} {k n k' n' : ℕ} (h : Ahead k n s) (hk : k' ≤ k) (hn : n ≤ n') : Ahead k' n' s :=
  ⟨Nat.le_trans (Nat.add_le_add_left hk _) h.buffered, Nat.lt_of_lt_of_le h.enough hn⟩

end LexerState

open LexerState

/-- A lexer that is fed, and the one with everything in its buffer. -/
def Streams (s w : LexerState) : Prop := s.Fed ∧ w = s.whole

/-- A lexer that is fed does with `x` what the one with everything in its buffer does, and does not run out of
    fuel. -/
abbrev Agrees {α : Type} (P : LexerState → Prop) (x : LexM α) (Q : α → LexerState → Prop) : Prop :=
  Lockstep Streams (fun e => ∃ e', e = .source (.syntaxError e')) P x x Q

namespace LexM

variable {α β : Type} {n k : ℕ} {P : LexerState → Prop} {Q : α → LexerState → Prop}

/-! ### Looking at the input -/

/-- Enough bytes are in the buffer in the end, or there are not as many. -/
theorem ensureAvailable_later {s : LexerState} (h : s.Fed) (needed : ℕ) : ∃ s', Later s s' ∧
    ensureAvailable needed s = .ok (decide (s.pos + needed ≤ s.whole.source.length)) s' ∧
    (s.pos + needed ≤ s.whole.source.length → s.pos + needed ≤ s'.source.length) := by
  have hloop : ∀ fuel s, s.Fed → s.pos + needed - s.source.length < fuel → ∃ s', Later s s' ∧
      repeatFor ParseError.fuel (fun _ => ensureRound needed) fuel () s =
        .ok (decide (s.pos + needed ≤ s.whole.source.length)) s' ∧
      (s.pos + needed ≤ s.whole.source.length → s.pos + needed ≤ s'.source.length) := by
    intro fuel
    induction fuel with
    | zero => exact fun s _ hfuel => absurd hfuel (Nat.not_lt_zero _)
    | succ fuel ih =>
      intro s h hfuel
      rcases Nat.lt_or_ge s.source.length (s.pos + needed) with hlack | henough
      · have hround : ensureRound needed s =
            .ok (if s.refill.1 then .inl () else .inr false) s.refill.2 := by
          rw [ensureRound, observe_bind, if_neg (by simpa using hlack), LexM.refill, transition_bind]
          split <;> rfl
        have hr := h.refill
        rw [repeatFor, bind_of_done hround]
        cases hmore : s.refill.1 with
        | true =>
          have := hr.gained hmore
          obtain ⟨s', hlater, hres, hbuf⟩ := ih s.refill.2 hr.fed (by rw [hr.pos]; omega)
          rw [hr.pos, hr.whole] at hres hbuf
          exact ⟨s', hr.toLater.trans hlater, hres, hbuf⟩
        | false =>
          have hdry : ¬ s.pos + needed ≤ s.whole.source.length := by
            rw [source_of_dry (hr.dry hmore)]
            exact Nat.not_le_of_lt hlack
          exact ⟨s.refill.2, hr.toLater, by rw [decide_eq_false hdry]; rfl, fun h => absurd h hdry⟩
      · have hround : ensureRound needed s = .ok (.inr true) s := by
          rw [ensureRound, observe_bind, if_pos (by simpa using henough)]
          rfl
        have hwhole : s.pos + needed ≤ s.whole.source.length := by
          rw [LexerState.whole, List.length_append]
          exact Nat.le_add_right_of_le henough
        refine ⟨s, h.later, ?_, fun _ => henough⟩
        rw [repeatFor, bind_of_done hround, decide_eq_true hwhole]
        rfl
  exact hloop (needed + 1) s h (by have := h.inside; omega)

theorem refill_whole (s : LexerState) : s.whole.refill = (false, s.whole) := rfl

theorem ensureAvailable_whole (s : LexerState) (needed : ℕ) :
    ensureAvailable needed s.whole = .ok (decide (s.pos + needed ≤ s.whole.source.length)) s.whole := by
  have hround : ensureRound needed s.whole =
      .ok (.inr (decide (s.pos + needed ≤ s.whole.source.length))) s.whole := by
    rw [ensureRound, observe_bind]
    change (if decide (s.pos + needed ≤ s.whole.source.length) = true then _ else _ : LexM _) s.whole = _
    cases decide (s.pos + needed ≤ s.whole.source.length) <;> rfl
  rw [ensureAvailable, repeatFor, bind_of_done hround]
  rfl

/-- A look at a byte finds what is there in the whole buffer. -/
theorem peekAhead_later {s : LexerState} (h : s.Fed) (offset : ℕ) : ∃ s', Later s s' ∧
    peekAhead offset s = .ok s.whole.source[s.pos + offset]? s' ∧
    (s.pos + offset < s.whole.source.length → s.pos + offset < s'.source.length) := by
  rw [peekAhead, observe_bind]
  rcases Nat.lt_or_ge (s.pos + offset) s.source.length with hin | hout
  · rw [List.getElem?_eq_getElem hin]
    refine ⟨s, h.later, ?_, fun _ => hin⟩
    rw [getElem?_whole hin, List.getElem?_eq_getElem hin]
    rfl
  · rw [List.getElem?_eq_none hout]
    obtain ⟨s', hlater, hres, hbuf⟩ := ensureAvailable_later h (offset + 1)
    refine ⟨s', hlater, ?_, hbuf⟩
    change (ensureAvailable (offset + 1) >>= _) s = _
    rw [bind_of_done hres]
    by_cases hmore : s.pos + (offset + 1) ≤ s.whole.source.length
    · rw [decide_eq_true hmore, if_pos rfl]
      have hin : s'.pos + offset < s'.source.length := by
        rw [hlater.pos]
        exact hbuf hmore
      rw [← hlater.whole, ← hlater.pos, getElem?_whole hin]
      rfl
    · have hnone : s.whole.source[s.pos + offset]? = none := List.getElem?_eq_none (Nat.le_of_not_lt hmore)
      rw [decide_eq_false hmore, if_neg Bool.false_ne_true, hnone]
      rfl

theorem peekAhead_whole (s : LexerState) (offset : ℕ) :
    peekAhead offset s.whole = .ok s.whole.source[s.pos + offset]? s.whole := by
  rw [peekAhead, observe_bind]
  have hpos : s.whole.pos = s.pos := rfl
  rw [hpos]
  cases hc : s.whole.source[s.pos + offset]? with
  | some c => rfl
  | none =>
    have hdry : ¬ s.pos + (offset + 1) ≤ s.whole.source.length := Nat.not_le_of_lt (by
      have := List.getElem?_eq_none_iff.mp hc
      omega)
    change (ensureAvailable (offset + 1) >>= _) s.whole = _
    rw [bind_of_done (ensureAvailable_whole s (offset + 1)), decide_eq_false hdry, if_neg Bool.false_ne_true]
    rfl

theorem peek_later {s : LexerState} (h : s.Fed) : ∃ s', Later s s' ∧ peek s = .ok s.whole.source[s.pos]? s' ∧
    (s.pos < s.whole.source.length → s.pos < s'.source.length) := by
  rw [peek, observe_bind]
  rcases Nat.lt_or_ge s.pos s.source.length with hin | hout
  · rw [List.getElem?_eq_getElem hin]
    refine ⟨s, h.later, ?_, fun _ => hin⟩
    rw [getElem?_whole hin, List.getElem?_eq_getElem hin]
    rfl
  · rw [List.getElem?_eq_none hout]
    have hr := h.refill
    refine ⟨s.refill.2, hr.toLater, ?_, ?_⟩
    · change (LexM.refill >>= _) s = _
      rw [LexM.refill, transition_bind]
      cases hmore : s.refill.1 with
      | true =>
        have hin : s.refill.2.pos < s.refill.2.source.length := by
          rw [hr.pos]
          exact Nat.lt_of_le_of_lt h.inside (hr.gained hmore)
        rw [if_pos rfl, ← hr.whole, ← hr.pos, getElem?_whole hin]
        rfl
      | false =>
        rw [if_neg Bool.false_ne_true, source_of_dry (hr.dry hmore), List.getElem?_eq_none hout]
        rfl
    · intro hin
      cases hmore : s.refill.1 with
      | true => exact Nat.lt_of_le_of_lt h.inside (hr.gained hmore)
      | false =>
        rw [source_of_dry (hr.dry hmore)] at hin
        exact absurd hin (Nat.not_lt_of_le hout)

theorem peek_whole (s : LexerState) : peek s.whole = .ok s.whole.source[s.pos]? s.whole := by
  rw [peek, observe_bind]
  have hpos : s.whole.pos = s.pos := rfl
  rw [hpos]
  cases hc : s.whole.source[s.pos]? with
  | some c => rfl
  | none => rfl

/-- A look that finds a byte has it in the buffer. -/
theorem agrees_of_later {s s' : LexerState} {offset : ℕ} (hlater : Later s s') (ha : Ahead offset n s)
    (hbuf : s.pos + offset < s.whole.source.length → s.pos + offset < s'.source.length) :
    Ahead (offset + s.whole.source[s.pos + offset]?.isSome.toNat) n s' := by
  have ha' := hlater.ahead ha
  cases hc : s.whole.source[s.pos + offset]? with
  | none => exact ha'
  | some c =>
    refine ⟨?_, ha'.enough⟩
    rw [hlater.pos]
    exact hbuf (List.getElem?_eq_some_iff.mp hc).1

theorem agrees_peekAhead (offset : ℕ) :
    Agrees (Ahead offset n) (peekAhead offset) fun c => Ahead (offset + c.isSome.toNat) n := by
  rintro s w ⟨hfed, rfl⟩ ha
  obtain ⟨s', hlater, hres, hbuf⟩ := peekAhead_later hfed offset
  rw [hres, peekAhead_whole]
  exact .ok ⟨hlater.fed, hlater.whole.symm⟩ (agrees_of_later hlater ha hbuf)

theorem agrees_peek : Agrees (Ahead 0 n) peek fun c => Ahead c.isSome.toNat n := by
  rintro s w ⟨hfed, rfl⟩ ha
  obtain ⟨s', hlater, hres, hbuf⟩ := peek_later hfed
  rw [hres, peek_whole]
  refine .ok ⟨hlater.fed, hlater.whole.symm⟩ ?_
  have := agrees_of_later hlater ha hbuf
  rwa [Nat.zero_add] at this

/-! ### Taking bytes -/

theorem agrees_skip (j columns : ℕ) : Agrees (Ahead (k + j) (n + j)) (skip j columns) fun _ => Ahead k n := by
  refine Lockstep.change ?_
  rintro s w ⟨hfed, rfl⟩ ha
  have hin := ha.buffered
  have hleft := ha.enough
  refine ⟨⟨⟨hfed.chunks, hfed.quiet, ?_⟩, rfl⟩, ⟨?_, ?_⟩⟩
  · change s.pos + j ≤ s.source.length
    omega
  · change s.pos + j + k ≤ s.source.length
    omega
  · change s.source.length + s.ahead.length - (s.pos + j) < n
    rw [LexerState.left] at hleft
    omega

/-- Takes bytes that the rest of the loop is not to count with. -/
theorem agrees_skip_all (j columns : ℕ) : Agrees (Ahead (k + j) n) (skip j columns) fun _ => Ahead k n :=
  (agrees_skip j columns).pre fun _ ha => ha.mono (Nat.le_refl _) (Nat.le_add_right n j)

theorem agrees_refillEagerly : Agrees (Ahead k n) refillEagerly fun _ => Ahead k n := by
  rintro s w ⟨hfed, rfl⟩ ha
  have hwhole : refillEagerly s.whole = .ok () s.whole := rfl
  rw [hwhole, refillEagerly, observe_bind]
  by_cases hex : s.reader.isSome ∧ s.source.length ≤ s.pos
  · rw [decide_eq_true hex, if_pos rfl]
    have hr := hfed.refill
    exact .ok ⟨hr.fed, hr.whole.symm⟩ (hr.toLater.ahead ha)
  · rw [decide_eq_false hex, if_neg Bool.false_ne_true]
    exact .ok ⟨hfed, rfl⟩ ha

theorem agrees_peek_some : Agrees (Ahead 1 n) peek fun c s => c.isSome = true ∧ Ahead 1 n s := by
  rintro s w ⟨hfed, rfl⟩ ha
  obtain ⟨s', hlater, hres, -⟩ := peek_later hfed
  rw [hres, peek_whole]
  have hin : s.pos < s.source.length := ha.buffered
  refine .ok ⟨hlater.fed, hlater.whole.symm⟩ ⟨?_, hlater.ahead ha⟩
  rw [getElem?_whole hin, List.getElem?_eq_getElem hin]
  rfl

theorem agrees_advance : Agrees (Ahead 1 (n + 1)) advance fun _ => Ahead 0 n := by
  refine .bind agrees_peek_some fun c => ?_
  cases c with
  | none => exact .of_pre (fun _ h => h.1) fun h => absurd h Bool.false_ne_true
  | some c =>
    have hskip : Agrees (Ahead 1 (n + 1)) (skip 1 _) fun _ => Ahead 0 n := agrees_skip 1 (if isNewline c then 0 else 1)
    exact .bind (hskip.pre fun _ h => h.2) fun _ => .bind agrees_refillEagerly fun _ => .pure _ fun _ => id

/-- Takes a byte that the rest of the loop is not to count with. -/
theorem agrees_take : Agrees (Ahead 1 n) advance fun _ => Ahead 0 n :=
  agrees_advance.pre fun _ ha => ha.mono (Nat.le_refl _) (Nat.le_succ n)

theorem agrees_skipSecond (old : UInt8) : Agrees (Ahead 0 n) (skipSecond old) fun _ => Ahead 0 n := by
  refine .bind agrees_peek fun c => ?_
  cases c with
  | none => exact .pure _ fun _ => id
  | some c => exact .ite (fun _ => agrees_skip_all 1 0) fun _ => .pure _ fun _ ha => ha.mono (Nat.zero_le _) (Nat.le_refl _)

theorem agrees_incLine : Agrees (Ahead 1 (n + 1)) incLine fun _ => Ahead 0 n := by
  refine .bind agrees_peek_some fun c => ?_
  have hskip : Agrees (Ahead 1 (n + 1)) (skip 1 0) fun _ => Ahead 0 n := agrees_skip 1 0
  refine .bind (hskip.pre fun _ h => h.2) fun _ => .bind (agrees_skipSecond _) fun _ => .change ?_
  rintro s w ⟨hfed, rfl⟩ ha
  exact ⟨⟨⟨hfed.chunks, hfed.quiet, hfed.inside⟩, rfl⟩, ha.buffered, ha.enough⟩

theorem agrees_syntaxErrorNear (msg near : String) : Agrees P (syntaxErrorNear msg near) Q := by
  refine .bind (M := fun _ _ => True) (.observe ?_) fun e => .throw ⟨e, rfl⟩
  rintro s w ⟨-, rfl⟩ -
  exact ⟨rfl, trivial⟩

theorem agrees_currentSpan : Agrees P currentSpan fun _ => P := by
  refine .observe ?_
  rintro s w ⟨-, rfl⟩ hp
  exact ⟨rfl, hp⟩

theorem agrees_pos : Agrees P (observe (·.pos)) fun _ => P := by
  refine .observe ?_
  rintro s w ⟨-, rfl⟩ hp
  exact ⟨rfl, hp⟩

theorem agrees_lexeme (start : ℕ) : Agrees P (observe (·.lexeme start)) fun _ => P := by
  refine .observe ?_
  rintro s w ⟨hfed, rfl⟩ hp
  exact ⟨(hfed.lexeme start).symm, hp⟩

/-! ### Loops -/

/-- A loop whose rounds take a byte each, up to the last one. -/
theorem agrees_loop {f : β → LexM (β ⊕ α)} (b : β)
    (hround : ∀ n b, Agrees (Ahead 0 (n + 1)) (f b) (Sum.elim (fun _ => Ahead 0 n) fun _ => Ahead 0 (n + 1))) :
    Agrees (Ahead 0 n) (loop f b) fun _ => Ahead 0 n := by
  refine .bind (M := fun fuel s => s.left < fuel ∧ Ahead 0 n s) (.observe ?_) fun fuel => ?_
  · rintro s w ⟨-, rfl⟩ ha
    exact ⟨congrArg (· + 1) (left_whole s).symm, Nat.lt_succ_self _, ha⟩
  · refine (Lockstep.repeatFor (I := fun m _ => Ahead 0 (min m n)) ?_ ?_ fuel b).pre fun s h =>
      ⟨h.2.buffered, Nat.lt_min.mpr ⟨h.1, h.2.enough⟩⟩
    · intro b s h
      exact absurd h.enough (by rw [Nat.zero_min]; exact Nat.not_lt_zero _)
    · intro m b
      cases n with
      | zero => exact fun s _ _ h => absurd h.enough (by rw [Nat.min_zero]; exact Nat.not_lt_zero _)
      | succ n =>
        rw [Nat.succ_min_succ]
        refine (hround (min m n) b).post fun r s => ?_
        cases r with
        | inl b => exact fun h => h.mono (Nat.le_refl _) (by omega)
        | inr c => exact fun h => h.mono (Nat.le_refl _) (by omega)

theorem agrees_advanceWhile (p : UInt8 → Bool) : Agrees (Ahead 0 n) (advanceWhile p) fun _ => Ahead 0 n := by
  refine agrees_loop () fun n _ => .bind agrees_peek fun c => ?_
  cases c with
  | none => exact .pure _ fun _ => id
  | some c =>
    refine .ite (fun _ => .bind agrees_advance fun _ => .pure _ fun _ => id) fun _ => .pure _ fun _ ha => ?_
    exact ha.mono (Nat.zero_le _) (Nat.le_refl _)

/-! ### Bytes that are taken without a look at each -/

theorem whole_whole (s : LexerState) : s.whole.whole = s.whole := by
  simp only [LexerState.whole, LexerState.ahead, Option.getD_none, List.flatMap_nil, List.append_nil]

theorem advance_of_whole {w : LexerState} {c : UInt8} (hw : w.whole = w) (hc : w.source[w.pos]? = some c)
    (hnl : isNewline c = false) : advance w = .ok (some c) { w with pos := w.pos + 1, column := w.column + 1 } := by
  have hpeek : peek w = .ok (some c) w := by
    have := peek_whole w
    rwa [hw, hc] at this
  have hreader : w.reader = none := congrArg (fun s => s.reader) hw.symm
  have heager : refillEagerly { w with pos := w.pos + 1, column := w.column + 1 } =
      .ok () { w with pos := w.pos + 1, column := w.column + 1 } := by
    rw [refillEagerly, observe_bind]
    simp only [hreader, Option.isSome_none, Bool.false_eq_true, false_and, decide_false, if_false]
    rfl
  rw [advance, bind_of_done hpeek]
  change (refillEagerly >>= fun _ => pure (some c)) { w with pos := w.pos + 1, column := w.column + _ } = _
  rw [hnl]
  exact bind_of_done heager

/-- Without a reader, looking at each byte is the same. -/
theorem advanceWhile_of_whole {p : UInt8 → Bool} (hp : ∀ c, p c = true → isNewline c = false) {w : LexerState}
    (hw : w.whole = w) : advanceWhile p w = advanceWhole p w := by
  have hloop : ∀ fuel (w : LexerState), w.whole = w → ((w.source.drop w.pos).takeWhile p).length < fuel →
      repeatFor ParseError.fuel (fun _ => advanceRound p) fuel () w = advanceWhole p w := by
    intro fuel
    induction fuel with
    | zero => exact fun w _ hfuel => absurd hfuel (Nat.not_lt_zero _)
    | succ fuel ih =>
      intro w hw hfuel
      have hpeek : peek w = .ok w.source[w.pos]? w := by
        have := peek_whole w
        rwa [hw] at this
      have hstop (hround : advanceRound p w = .ok (.inr ()) w) (htake : (w.source.drop w.pos).takeWhile p = []) :
          repeatFor ParseError.fuel (fun _ => advanceRound p) (fuel + 1) () w = advanceWhole p w := by
        rw [repeatFor, bind_of_done hround, advanceWhole, observe_bind, htake]
        rfl
      cases hc : w.source[w.pos]? with
      | none =>
        rw [hc] at hpeek
        refine hstop (by rw [advanceRound, bind_of_done hpeek]; rfl) ?_
        rw [List.drop_of_length_le (List.getElem?_eq_none_iff.mp hc)]
        rfl
      | some c =>
        rw [hc] at hpeek
        obtain ⟨hin, hget⟩ := List.getElem?_eq_some_iff.mp hc
        have hdrop := List.drop_eq_getElem_cons hin
        rw [hget] at hdrop
        cases hpc : p c with
        | false =>
          refine hstop ?_ (by rw [hdrop, List.takeWhile_cons_of_neg (by simp [hpc])])
          rw [advanceRound, bind_of_done hpeek]
          simp only [hpc, Bool.false_eq_true, if_false]
          rfl
        | true =>
          have hround : advanceRound p w = .ok (.inl ()) { w with pos := w.pos + 1, column := w.column + 1 } := by
            rw [advanceRound, bind_of_done hpeek]
            simp only [hpc, if_true]
            rw [bind_of_done (advance_of_whole hw hc (hp c hpc))]
            rfl
          rw [hdrop, List.takeWhile_cons_of_pos hpc, List.length_cons] at hfuel
          have hw₁ : LexerState.whole { w with pos := w.pos + 1, column := w.column + 1 } =
              { w with pos := w.pos + 1, column := w.column + 1 } := by
            conv_rhs => rw [← hw]
            rfl
          rw [repeatFor, bind_of_done hround]
          refine (ih _ hw₁ (by simpa using hfuel)).trans ?_
          simp only [advanceWhole, observe_bind, hdrop, List.takeWhile_cons_of_pos hpc, List.length_cons]
          simp only [skip, change, Nat.add_assoc, Nat.add_comm 1]
  rw [advanceWhile, loop, observe_bind]
  refine hloop _ w hw ?_
  have htake : ((w.source.drop w.pos).takeWhile p).length ≤ (w.source.drop w.pos).length :=
    List.IsPrefix.length_le (List.takeWhile_prefix p)
  rw [List.length_drop] at htake
  rw [LexerState.left]
  omega

/-- A lexer takes the bytes in its own way: the fast one where it has no reader. -/
theorem agrees_fast {p : UInt8 → Bool} (hp : ∀ c, p c = true → isNewline c = false) :
    Agrees (Ahead 0 n) (advanceFast p) fun _ => Ahead 0 n := by
  rintro s w ⟨hfed, rfl⟩ ha
  obtain ⟨cs, hreader, -⟩ := hfed.chunks
  have hslow : advanceFast p s = advanceWhile p s := by
    rw [advanceFast, observe_bind, hreader]
    rfl
  have hfast : advanceFast p s.whole = advanceWhile p s.whole := by
    rw [advanceWhile_of_whole hp (whole_whole s)]
    rfl
  rw [hslow, hfast]
  exact agrees_advanceWhile p s s.whole ⟨hfed, rfl⟩ ha

/-! ### Names, numbers and strings -/

theorem agrees_advanceIf (p : Bool) : Agrees (Ahead p.toNat n) (advanceIf p) fun _ => Ahead 0 n := by
  cases p with
  | false => exact .pure _ fun _ => id
  | true => exact .bind agrees_take fun _ => .pure _ fun _ => id

theorem not_newline {p : UInt8 → Bool} (h10 : p 10 = false) (h13 : p 13 = false) (c : UInt8) (h : p c = true) :
    isNewline c = false := by
  by_contra hnl
  rw [Bool.not_eq_false, isNewline, Bool.or_eq_true, decide_eq_true_iff, decide_eq_true_iff] at hnl
  rcases hnl with rfl | rfl
  · exact Bool.false_ne_true (h10.symm.trans h)
  · exact Bool.false_ne_true (h13.symm.trans h)

theorem agrees_scanNameExtent : Agrees (Ahead 0 n) scanNameExtent fun _ => Ahead 0 n :=
  .bind agrees_pos fun start => .bind (agrees_fast (not_newline (by decide) (by decide))) fun _ => agrees_lexeme start

theorem agrees_readExponent : Agrees (Ahead 0 n) readExponent fun _ => Ahead 0 n := by
  refine .bind agrees_peek fun c => .ite (fun hc => ?_) fun _ => .pure _ fun _ ha => ha.mono (Nat.zero_le _) (Nat.le_refl _)
  have hsome : c.isSome.toNat = 1 := by
    rcases hc with rfl | rfl <;> rfl
  rw [hsome]
  refine .bind agrees_take fun _ => .bind agrees_peek fun d => (agrees_advanceIf _).pre fun _ ha => ?_
  refine ha.mono ?_ (Nat.le_refl _)
  cases d with
  | none => exact Nat.le_refl _
  | some d => exact Bool.toNat_le _

theorem agrees_saveText (f : LexerState → String) (hf : ∀ s : LexerState, s.Fed → f s.whole = f s) :
    Agrees (Ahead k n) (change fun s => { s with lastTokenText := f s }) fun _ => Ahead k n := by
  refine Lockstep.change ?_
  rintro s w ⟨hfed, rfl⟩ ha
  refine ⟨⟨⟨hfed.chunks, hfed.quiet, hfed.inside⟩, ?_⟩, ha.buffered, ha.enough⟩
  rw [hf s hfed]
  rfl

theorem agrees_readNumber (num : Numerals) (first : UInt8) :
    Agrees (Ahead (decide (first ≠ ch '.')).toNat n) (readNumber num first) fun _ => Ahead 0 n := by
  refine .bind (M := fun _ => Ahead (decide (first ≠ ch '.')).toNat n) (.observe ?_) fun start => ?_
  · rintro s w ⟨-, rfl⟩ ha
    exact ⟨rfl, ha⟩
  refine .bind (agrees_advanceIf _) fun _ => .bind (agrees_advanceWhile _) fun _ => ?_
  refine .bind (M := fun _ => Ahead 0 n) (.observe ?_) fun isHex => ?_
  · rintro s w ⟨hfed, rfl⟩ ha
    exact ⟨congrArg isHexPrefix (hfed.lexeme start).symm, ha⟩
  refine .bind (agrees_advanceWhile _) fun _ => .bind agrees_readExponent fun _ => ?_
  refine .bind (agrees_advanceWhile _) fun _ => .bind (agrees_lexeme start) fun bytes => ?_
  refine .bind (agrees_saveText _ fun _ _ => rfl) fun _ => ?_
  split
  · exact .pure _ fun _ => id
  · exact agrees_syntaxErrorNear _ _

theorem agrees_readHexEscapeDigit (message : String) :
    Agrees (Ahead 0 n) (readHexEscapeDigit message) fun _ => Ahead 0 n := by
  refine .bind agrees_peek fun c => ?_
  cases c with
  | none => exact agrees_syntaxErrorNear _ _
  | some c =>
    cases hd : (some c).bind toDigit16 with
    | none => exact agrees_syntaxErrorNear _ _
    | some digit => exact .bind agrees_take fun _ => .pure _ fun _ => id

theorem agrees_readHexEscapeByte : Agrees (Ahead 0 n) readHexEscapeByte fun _ => Ahead 0 n :=
  .bind (agrees_readHexEscapeDigit _) fun _ => .bind (agrees_readHexEscapeDigit _) fun _ => .pure _ fun _ => id

theorem agrees_readUnicodeEscapeChar : Agrees (Ahead 0 n) readUnicodeEscapeChar fun _ => Ahead 0 n := by
  refine .bind (agrees_readHexEscapeDigit _) fun a => .bind (agrees_readHexEscapeDigit _) fun b => ?_
  refine .bind (agrees_readHexEscapeDigit _) fun c => .bind (agrees_readHexEscapeDigit _) fun d => ?_
  exact .ite (fun _ => .pure _ fun _ => id) fun _ => agrees_syntaxErrorNear _ _

theorem agrees_decimalDigits (m val : ℕ) : Agrees (Ahead 0 n) (decimalDigits m val) fun _ => Ahead 0 n := by
  induction m generalizing val with
  | zero => exact .pure _ fun _ => id
  | succ m ih =>
    refine .bind agrees_peek fun c => ?_
    cases c with
    | none => exact .pure _ fun _ => id
    | some c =>
      refine .ite (fun _ => .bind agrees_take fun _ => ih _) fun _ => .pure _ fun _ ha => ?_
      exact ha.mono (Nat.zero_le _) (Nat.le_refl _)

theorem agrees_readDecimalEscape : Agrees (Ahead 0 n) readDecimalEscape fun _ => Ahead 0 n :=
  .bind (agrees_decimalDigits 3 0) fun _ =>
    .ite (fun _ => agrees_syntaxErrorNear _ _) fun _ => .pure _ fun _ => id

theorem agrees_readShortStringEscape : Agrees (Ahead 0 n) readShortStringEscape fun _ => Ahead 0 n := by
  refine .bind agrees_peek fun c => ?_
  cases c with
  | none => exact agrees_syntaxErrorNear _ _
  | some c =>
    refine .ite (fun _ => ?_) fun _ => .ite (fun _ => ?_) fun _ => .ite (fun _ => ?_) fun _ => .ite (fun _ => ?_) fun _ => ?_
    · exact .bind agrees_take fun _ => .bind agrees_readHexEscapeByte fun _ => .pure _ fun _ => id
    · exact .bind agrees_take fun _ => agrees_readUnicodeEscapeChar
    · refine .bind (agrees_incLine.pre fun _ ha => ?_) fun _ => .pure _ fun _ => id
      exact ha.mono (Nat.le_refl _) (Nat.le_succ n)
    · refine .bind (agrees_readDecimalEscape.pre fun _ ha => ?_) fun _ => .pure _ fun _ => id
      exact ha.mono (Nat.zero_le _) (Nat.le_refl _)
    · exact .bind agrees_take fun _ => .pure _ fun _ => id

theorem agrees_readShortString (delimiter : UInt8) : Agrees (Ahead 1 n) (readShortString delimiter) fun _ => Ahead 0 n := by
  refine .bind agrees_take fun _ => agrees_loop _ fun n buf => .bind agrees_peek fun c => ?_
  cases c with
  | none => exact agrees_syntaxErrorNear _ _
  | some c =>
    refine .ite (fun _ => ?_) fun _ => .ite (fun _ => ?_) fun _ => .ite (fun _ => ?_) fun _ => ?_
    · exact agrees_syntaxErrorNear _ _
    · exact .bind agrees_take fun _ => .pure _ fun _ => id
    · exact .bind agrees_advance fun _ => .bind agrees_readShortStringEscape fun _ => .pure _ fun _ => id
    · exact .bind agrees_advance fun _ => .pure _ fun _ => id

/-! ### Long brackets -/

/-- How many bytes are known behind the position where `countSep` has looked at them. -/
def sepSize : Sep → ℕ
  | .level n => 2 + n
  | _ => 1

theorem agrees_countSep : Agrees (Ahead 1 n) countSep fun sep => Ahead (sepSize sep) n := by
  have hloop : Agrees (Ahead 1 n) (loop countRound 0) fun count => Ahead (count + 1) n := by
    refine .bind (M := fun fuel s => s.left < fuel ∧ Ahead 1 n s) (.observe ?_) fun fuel => ?_
    · rintro s w ⟨-, rfl⟩ ha
      exact ⟨congrArg (· + 1) (left_whole s).symm, Nat.lt_succ_self _, ha⟩
    · refine (Lockstep.repeatFor (I := fun m count => Ahead (count + 1) (min n (m + count))) ?_ ?_ fuel 0).pre fun s h =>
        ⟨h.2.buffered, Nat.lt_min.mpr ⟨h.2.enough, h.1⟩⟩
      · intro count s h
        -- As many bytes are left as are in the buffer.
        have hbuf := h.buffered
        have hleft := (Nat.lt_min.mp h.enough).2
        rw [LexerState.left] at hleft
        omega
      · intro m count
        refine .bind (agrees_peekAhead (count + 1)) fun c => .ite (fun hc => .pure _ fun s ha => ?_) fun _ => .pure _ fun s ha => ?_
        · rw [hc] at ha
          exact ha.mono (Nat.le_refl _) (by omega)
        · exact ha.mono (Nat.le_add_right _ _) (Nat.min_le_left _ _)
  refine .bind hloop fun count => .bind (agrees_peekAhead (count + 1)) fun c => .ite (fun hc => .pure _ fun s ha => ?_) fun _ => ?_
  · rw [hc] at ha
    exact ha.mono (by change 2 + count ≤ count + 1 + 1; omega) (Nat.le_refl _)
  · refine .ite (fun _ => .pure _ fun s ha => ?_) fun _ => .pure _ fun s ha => ?_
    · exact ha.mono (by change 1 ≤ count + 1 + _; omega) (Nat.le_refl _)
    · exact ha.mono (by change 1 ≤ count + 1 + _; omega) (Nat.le_refl _)

theorem agrees_closingBehind (m i : ℕ) :
    Agrees (Ahead (i + 1) n) (closingBehind m (i + 1)) fun r => Ahead (if r then i + 2 + m else 1) n := by
  induction m generalizing i with
  | zero =>
    refine .bind (agrees_peekAhead (i + 1)) fun c => .pure _ fun s ha => ?_
    by_cases hc : c = some (ch ']')
    · rw [hc] at ha
      rw [if_pos (by simpa using hc)]
      exact ha
    · rw [if_neg (by simpa using hc)]
      exact ha.mono (by omega) (Nat.le_refl _)
  | succ m ih =>
    refine .bind (agrees_peekAhead (i + 1)) fun c => .ite (fun hc => ?_) fun _ => .pure _ fun s ha => ?_
    · rw [hc]
      refine (ih (i + 1)).post fun r s ha => ha.mono ?_ (Nat.le_refl _)
      split <;> omega
    · exact ha.mono (by rw [if_neg Bool.false_ne_true]; omega) (Nat.le_refl _)

theorem agrees_checkClosingLongBracket (sep : ℕ) :
    Agrees (Ahead 1 n) (checkClosingLongBracket sep) fun r => Ahead (if r then 2 + sep else 1) n := by
  refine .bind agrees_peek_some fun c => .ite (fun _ => ?_) fun _ => .pure _ fun s ha => ha.2
  exact (agrees_closingBehind sep 0).mono (fun s ha => ha.2) fun r s ha => ha.mono (by split <;> omega) (Nat.le_refl _)

theorem agrees_skipFirstNewline : Agrees (Ahead 0 n) skipFirstNewline fun _ => Ahead 0 n := by
  refine .bind agrees_peek fun c => ?_
  cases c with
  | none => exact .pure _ fun _ => id
  | some c =>
    refine .ite (fun _ => ?_) fun _ => .pure _ fun _ ha => ha.mono (Nat.zero_le _) (Nat.le_refl _)
    exact agrees_incLine.pre fun _ ha => ha.mono (Nat.le_refl _) (Nat.le_succ n)

theorem agrees_readLongString (sep : ℕ) (isComment : Bool) :
    Agrees (Ahead (2 + sep) n) (readLongString sep isComment) fun _ => Ahead 0 n := by
  have hopen : Agrees (Ahead (2 + sep) n) (skip (2 + sep) (2 + sep)) fun _ => Ahead 0 n :=
    (agrees_skip_all (2 + sep) _).pre fun s ha => ha.mono (by omega) (Nat.le_refl _)
  refine .bind hopen fun _ => .bind agrees_skipFirstNewline fun _ => agrees_loop _ fun n buf => .bind agrees_peek fun c => ?_
  cases c with
  | none => exact agrees_syntaxErrorNear _ _
  | some c =>
    refine .ite (fun _ => ?_) fun _ => .ite (fun _ => ?_) fun _ => ?_
    · exact .bind agrees_incLine fun _ => .pure _ fun _ => id
    · refine .bind (agrees_checkClosingLongBracket sep) fun closing => ?_
      cases closing with
      | true =>
        have hclose : Agrees (Ahead (2 + sep) (n + 1)) (skip (2 + sep) (2 + sep)) fun _ => Ahead 0 (n + 1) :=
          (agrees_skip_all (2 + sep) _).pre fun s ha => ha.mono (by omega) (Nat.le_refl _)
        exact .bind hclose fun _ => .pure _ fun _ => id
      | false => exact .bind agrees_advance fun _ => .pure _ fun _ => id
    · exact .bind agrees_advance fun _ => .pure _ fun _ => id

/-! ### Tokens -/

theorem agrees_raiseReaderError : Agrees P raiseReaderError fun _ => P := by
  rintro s w ⟨hfed, rfl⟩ hp
  have hquiet : raiseReaderError s = .ok () s := by
    rw [raiseReaderError, observe_bind, hfed.quiet]
    rfl
  have hwhole : raiseReaderError s.whole = .ok () s.whole := by
    have hnone : s.whole.readerError = none := hfed.quiet
    rw [raiseReaderError, observe_bind, hnone]
    rfl
  rw [hquiet, hwhole]
  exact .ok ⟨hfed, rfl⟩ hp

theorem agrees_saveTokenText (start : ℕ) : Agrees (Ahead k n) (saveTokenText start) fun _ => Ahead k n :=
  agrees_saveText _ fun s hfed => by rw [hfed.lexeme]

theorem agrees_commentSep : Agrees (Ahead 0 n) commentSep fun sep s => Ahead 0 n s ∧ ∀ m, sep = .level m → Ahead (2 + m) n s := by
  refine .bind agrees_peek fun c => .ite (fun hc => ?_) fun _ => .pure _ fun s ha => ?_
  · rw [hc]
    refine agrees_countSep.post fun sep s ha => ⟨ha.mono (Nat.zero_le _) (Nat.le_refl _), ?_⟩
    rintro m rfl
    exact ha
  · exact ⟨ha.mono (Nat.zero_le _) (Nat.le_refl _), fun m hm => by cases hm⟩

theorem agrees_scanMinus : Agrees (Ahead 1 (n + 1)) scanMinus fun _ => Ahead 0 n := by
  refine .bind agrees_advance fun _ => .bind agrees_peek fun c => .ite (fun _ => .pure _ fun _ ha => ?_) fun hc => ?_
  · exact ha.mono (Nat.zero_le _) (Nat.le_refl _)
  · rw [not_ne_iff.mp hc]
    refine .bind agrees_take fun _ => .bind agrees_commentSep fun sep => ?_
    have hline : Agrees (Ahead 0 n) (advanceWhile (fun c => !isNewline c) >>= fun _ => pure (none : Option Token))
        fun _ => Ahead 0 n := .bind (agrees_advanceWhile _) fun _ => .pure _ fun _ => id
    cases sep with
    | level m =>
      exact .bind ((agrees_readLongString m true).pre fun _ ha => ha.2 m rfl) fun _ => .pure _ fun _ => id
    | invalid => exact hline.pre fun _ ha => ha.1
    | bracket => exact hline.pre fun _ ha => ha.1

theorem agrees_scanBracket (start : ℕ) : Agrees (Ahead 1 n) (scanBracket start) fun _ => Ahead 0 n := by
  refine .bind agrees_countSep fun sep => ?_
  cases sep with
  | level m =>
    exact .bind (agrees_readLongString m false) fun _ => .bind (agrees_saveTokenText start) fun _ => .pure _ fun _ => id
  | invalid => exact agrees_syntaxErrorNear _ _
  | bracket => exact .bind agrees_take fun _ => .pure _ fun _ => id

theorem agrees_scanPair (c : UInt8) (pair : Token) : Agrees (Ahead 1 n) (scanPair c pair) fun _ => Ahead 0 n := by
  refine .bind agrees_take fun _ => .bind agrees_peek fun d => .ite (fun hd => ?_) fun _ => ?_
  · rw [hd]
    exact .bind agrees_take fun _ => .pure _ fun _ => id
  · refine .ite (fun _ => agrees_syntaxErrorNear _ _) fun _ => .pure _ fun _ ha => ?_
    exact ha.mono (Nat.zero_le _) (Nat.le_refl _)

theorem agrees_scanDots (num : Numerals) : Agrees (Ahead 1 n) (scanDots num) fun _ => Ahead 0 n := by
  refine .bind agrees_take fun _ => .bind agrees_peek fun c => .ite (fun hc => ?_) fun _ => .ite (fun _ => ?_) fun _ => ?_
  · rw [hc]
    refine .bind agrees_take fun _ => .bind agrees_peek fun d => .ite (fun hd => ?_) fun _ => .pure _ fun _ ha => ?_
    · rw [hd]
      exact .bind agrees_take fun _ => .pure _ fun _ => id
    · exact ha.mono (Nat.zero_le _) (Nat.le_refl _)
  · refine .bind ((agrees_readNumber num _).pre fun _ ha => ?_) fun _ => .pure _ fun _ => id
    exact ha.mono (Nat.zero_le _) (Nat.le_refl _)
  · exact .pure _ fun _ ha => ha.mono (Nat.zero_le _) (Nat.le_refl _)

theorem agrees_scanName : Agrees (Ahead 0 n) scanName fun _ => Ahead 0 n :=
  .bind agrees_scanNameExtent fun _ => .pure _ fun _ => id

/-- What starts at the current position takes a byte, at least where it is not a token. -/
theorem agrees_scanFrom (num : Numerals) (c : UInt8) (start : ℕ) :
    Agrees (Ahead 1 (n + 1)) (scanFrom num c start) fun t => Ahead 0 (n + t.isSome.toNat) := by
  have htoken {x : LexM Token} (hx : Agrees (Ahead 1 (n + 1)) x fun _ => Ahead 0 (n + 1)) :
      Agrees (Ahead 1 (n + 1)) (x >>= fun t => pure (some t)) fun t => Ahead 0 (n + t.isSome.toNat) :=
    .bind hx fun _ => .pure _ fun _ => id
  have hpair (pair : Token) := htoken (agrees_scanPair c pair)
  refine .ite (fun _ => ?_) fun _ => .ite (fun _ => ?_) fun _ => .ite (fun _ => ?_) fun _ => .ite (fun _ => ?_) fun _ =>
    .ite (fun _ => ?_) fun _ => .ite (fun _ => ?_) fun _ => .ite (fun _ => ?_) fun _ => .ite (fun _ => ?_) fun _ =>
    .ite (fun _ => ?_) fun _ => .ite (fun hc => ?_) fun _ => .ite (fun _ => ?_) fun _ => ?_
  · exact .bind agrees_incLine fun _ => .pure _ fun _ => id
  · exact agrees_scanMinus.post fun _ _ ha => ha.mono (Nat.le_refl _) (Nat.le_add_right _ _)
  · exact htoken (agrees_scanBracket start)
  · exact hpair _
  · exact hpair _
  · exact hpair _
  · exact hpair _
  · exact htoken (agrees_scanDots num)
  · exact .bind (agrees_readShortString c) fun _ => .bind (agrees_saveTokenText start) fun _ => .pure _ fun _ => id
  · refine .bind ((agrees_readNumber num c).pre fun _ ha => ?_) fun _ => .pure _ fun _ => id
    exact ha.mono (Bool.toNat_le _) (Nat.le_refl _)
  · exact htoken (agrees_scanName.pre fun _ ha => ha.mono (Nat.zero_le _) (Nat.le_refl _))
  · exact .bind agrees_take fun _ => .pure _ fun _ => id

theorem agrees_scanRound (num : Numerals) :
    Agrees (Ahead 0 (n + 1)) (scanRound num) (Sum.elim (fun _ => Ahead 0 n) fun _ => Ahead 0 (n + 1)) := by
  have hspace : Agrees (Ahead 0 (n + 1)) skipWhitespace fun _ => Ahead 0 (n + 1) :=
    agrees_fast (not_newline (by decide) (by decide))
  refine .bind agrees_raiseReaderError fun _ => .bind hspace fun _ => .bind agrees_raiseReaderError fun _ => ?_
  refine .bind agrees_currentSpan fun span => .bind agrees_pos fun start => .bind agrees_peek fun c => ?_
  cases c with
  | none => exact .bind agrees_raiseReaderError fun _ => .pure _ fun _ => id
  | some c =>
    refine .bind (agrees_scanFrom num c start) fun t => ?_
    cases t with
    | none => exact .pure _ fun _ => id
    | some t => exact .pure _ fun _ => id

theorem agrees_scan (num : Numerals) : Agrees (Ahead 0 n) (scan num) fun _ => Ahead 0 n :=
  agrees_loop () fun _ _ => agrees_scanRound num

theorem agrees_setLookahead (la : Option (Token × Location)) :
    Agrees P (change fun s => { s with lookahead := la }) fun _ _ => True := by
  refine Lockstep.change ?_
  rintro s w ⟨hfed, rfl⟩ -
  exact ⟨⟨⟨hfed.chunks, hfed.quiet, hfed.inside⟩, rfl⟩, trivial⟩

theorem agrees_lookahead_field : Agrees P (observe (·.lookahead)) fun _ => P := by
  refine .observe ?_
  rintro s w ⟨-, rfl⟩ hp
  exact ⟨rfl, hp⟩

theorem agrees_next (num : Numerals) : Agrees (Ahead 0 n) (next num) fun _ _ => True := by
  refine .bind agrees_lookahead_field fun la => ?_
  cases la with
  | some la => exact .bind (agrees_setLookahead none) fun _ => .pure _ fun _ => id
  | none => exact (agrees_scan num).post fun _ _ _ => trivial

theorem agrees_lookahead (num : Numerals) : Agrees (Ahead 0 n) (lookahead num) fun _ _ => True := by
  refine .bind agrees_lookahead_field fun la => ?_
  cases la with
  | some la => exact .pure _ fun _ _ => trivial
  | none => exact .bind (agrees_scan num) fun la => .bind (agrees_setLookahead _) fun _ => .pure _ fun _ => id

theorem agrees_perform (num : Numerals) (call : LexerCall) : Agrees (Ahead 0 n) (perform num call) fun _ _ => True := by
  cases call with
  | next => exact .bind (agrees_next num) fun _ => .pure _ fun _ => id
  | lookahead => exact .bind (agrees_lookahead num) fun _ => .pure _ fun _ => id

end LexM

/-- The reports of two lexers agree, and every error is one of the source. -/
def AlikeReports (rs rs' : List LexerReport) : Prop :=
  rs = rs' ∧ ∀ r ∈ rs, ∀ e, r.answer = .error e → ∃ e', e = .source (.syntaxError e')

theorem AlikeReports.cons {rs rs' : List LexerReport} {r : LexerReport} (h : AlikeReports rs rs')
    (hr : ∀ e, r.answer = .error e → ∃ e', e = .source (.syntaxError e')) : AlikeReports (r :: rs) (r :: rs') :=
  ⟨congrArg (r :: ·) h.1, List.forall_mem_cons.mpr ⟨hr, h.2⟩⟩

/-- A lexer that is fed reports what the one with everything in its buffer reports. -/
theorem Streams.alikeReports {s w : LexerState} (h : Streams s w) (num : Numerals) (calls : List LexerCall) :
    AlikeReports (s.reports num calls) (w.reports num calls) := by
  induction calls generalizing s w with
  | nil => exact ⟨rfl, fun r hr => absurd hr List.not_mem_nil⟩
  | cons call calls ih =>
    have hfuel : Ahead 0 (s.left + 1) s := ⟨h.1.inside, Nat.lt_succ_self _⟩
    have hcall := LexM.agrees_perform num call s w h hfuel
    rw [LexerState.reports, LexerState.reports]
    generalize LexM.perform num call s = r at hcall ⊢
    generalize LexM.perform num call w = r' at hcall ⊢
    cases hcall with
    | ok hrel _ =>
      obtain ⟨-, rfl⟩ := id hrel
      exact (ih hrel).cons fun e he => nomatch he
    | error hrel herr =>
      obtain ⟨-, rfl⟩ := id hrel
      refine (ih hrel).cons fun e he => ?_
      cases he
      exact herr

theorem streams_fromReader (sourceName : String) {source firstChunk : List UInt8} {chunks : List (List UInt8)}
    (hpart : firstChunk ++ chunks.flatten = source) (hne : ∀ c ∈ chunks, c ≠ []) (hhash : source.head? ≠ some (ch '#')) :
    Streams (fromReader firstChunk (chunkReader chunks) sourceName) (LexerState.new source sourceName) := by
  refine ⟨⟨⟨chunks, rfl, hne, fun h => absurd h Bool.false_ne_true⟩, rfl, Nat.zero_le _⟩, ?_⟩
  have hahead : (fromReader firstChunk (chunkReader chunks) sourceName).ahead = chunks.flatten := ahead_of_reader rfl
  rw [LexerState.new, if_neg hhash, whole, hahead, ← hpart]
  rfl

/-- Streaming lexing is whole-buffer lexing: whatever calls are made, tokens, lines and errors are the same, and no
    loop runs out of fuel. -/
theorem reports_fromReader (num : Numerals) (sourceName : String) {source firstChunk : List UInt8}
    {chunks : List (List UInt8)} (hpart : firstChunk ++ chunks.flatten = source) (hne : ∀ c ∈ chunks, c ≠ [])
    (hhash : source.head? ≠ some (ch '#')) (calls : List LexerCall) :
    (fromReader firstChunk (chunkReader chunks) sourceName).reports num calls =
        (LexerState.new source sourceName).reports num calls ∧
      ∀ r ∈ (LexerState.new source sourceName).reports num calls, r.answer ≠ .error .fuel := by
  obtain ⟨heq, herr⟩ := (streams_fromReader sourceName hpart hne hhash).alikeReports num calls
  refine ⟨heq, fun r hr he => ?_⟩
  obtain ⟨e', he'⟩ := herr r (heq ▸ hr) _ he
  cases he'

/-- `--[[\r\n]]x`, delivered byte by byte. -/
theorem reports_fromReader_bytes :
    (fromReader [45] (chunkReader [[45], [91], [91], [13], [10], [93], [93], [120]]) "=(load)").reports
        ⟨fun _ => none, 46⟩ [.lookahead, .next, .next] =
      (LexerState.new [45, 45, 91, 91, 13, 10, 93, 93, 120] "=(load)").reports ⟨fun _ => none, 46⟩
        [.lookahead, .next, .next] ∧
      ∀ r ∈ (LexerState.new [45, 45, 91, 91, 13, 10, 93, 93, 120] "=(load)").reports ⟨fun _ => none, 46⟩
        [.lookahead, .next, .next], r.answer ≠ .error .fuel :=
  reports_fromReader ⟨fun _ => none, 46⟩ "=(load)" rfl (by decide) (by decide) [.lookahead, .next, .next]

end Rilua.Compiler
