import Rilua.Compiler.Parser

/-! What the parser takes of its input, and how deep its calls nest. Every loop takes a token each time, so none
    runs out of fuel; and between two functions that take a syntax level there are eight calls at most. -/

namespace Rilua.Compiler

open Lib

/-- No more than `d` calls nest, and a loop builds a tree as deep as it is long. -/
def callPolicy (d : ℕ) : Metered.Policy Marks where
  guard := ⊤
  allowed := {m | m .call ≤ d ∧ m .loop ≤ m .tree}
  supClosed := by
    rintro m ⟨hcall, hloop⟩ m' ⟨hcall', hloop'⟩
    exact ⟨sup_le hcall hcall', sup_le_sup hloop hloop'⟩
  bot_mem := ⟨Nat.zero_le d, le_rfl⟩

section Takes

variable {α β γ : Type} {d d' : ℕ} {x : ParserM α} {f : α → ParserM β} {p : Parser} {Q : α → Parser → Prop}

/-- `x` meets its bounds on the calls from `p`. -/
abbrev Calls (d : ℕ) (x : ParserM α) (p : Parser) (Q : α → Parser → Prop) : Prop :=
  Metered.Meets (callPolicy d) (· ≠ .fuel) x p Q

/-- `x` makes at most `d` nested calls and gives no token back. -/
def Reads (d : ℕ) (x : ParserM α) : Prop := ∀ p, Calls d x p fun _ p' => p'.size ≤ p.size

/-- `x` takes a token from `p`. -/
def TakesAt (d : ℕ) (x : ParserM α) (p : Parser) : Prop := Calls d x p fun _ p' => p'.size < p.size

/-- `x` takes a token. -/
def Takes (d : ℕ) (x : ParserM α) : Prop := ∀ p, TakesAt d x p

/-- The body of a loop, which takes a token if it goes on. -/
def Iterates (d : ℕ) (x : ParserM (β ⊕ γ)) (p : Parser) : Prop :=
  Calls d x p fun r p' => if r.isLeft then p'.size < p.size else p'.size ≤ p.size

/-- `x` calls nothing, whatever is claimed of marks. -/
def Quiet (x : ParserM α) (p : Parser) (Q : α → Parser → Prop) : Prop :=
  ∀ (P : Metered.Policy Marks) (E : ParseError → Prop), (∀ e, e ≠ .fuel → E e) → Metered.Meets P E x p Q

theorem Quiet.calls (h : Quiet x p Q) : Calls d x p Q := h (callPolicy d) _ fun _ => id

theorem Reads.of_quiet (h : ∀ p, Quiet x p fun _ p' => p'.size ≤ p.size) : Reads d x := fun p => (h p).calls

theorem Calls.mono_depth (h : Calls d x p Q) (hd : d ≤ d') : Calls d' x p Q :=
  h.relax (fun _ _ => trivial) fun _ hm => ⟨hm.1.trans hd, hm.2⟩

theorem Reads.mono (h : Reads d x) (hd : d ≤ d') : Reads d' x := fun p => (h p).mono_depth hd

theorem TakesAt.mono (h : TakesAt d x p) (hd : d ≤ d') : TakesAt d' x p := Calls.mono_depth h hd

theorem Takes.mono (h : Takes d x) (hd : d ≤ d') : Takes d' x := fun p => (h p).mono hd

theorem Takes.reads (h : Takes d x) : Reads d x := fun p => Metered.Meets.mono (h p) fun _ _ => le_of_lt

theorem Reads.pure (a : α) : Reads d (Pure.pure a : ParserM α) := fun _ => .pure le_rfl

theorem Reads.bind (h : Reads d x) (hf : ∀ a, Reads d (f a)) : Reads d (x >>= f) := fun p =>
  (h p).bind fun a p' hle => (hf a p').mono fun _ _ hle' => hle'.trans hle

theorem TakesAt.bind (h : TakesAt d x p) (hf : ∀ a, Reads d (f a)) : TakesAt d (x >>= f) p :=
  Metered.Meets.bind h fun a p' hlt => (hf a p').mono fun _ _ hle => lt_of_le_of_lt hle hlt

theorem Takes.bind (h : Takes d x) (hf : ∀ a, Reads d (f a)) : Takes d (x >>= f) := fun p => (h p).bind hf

theorem Reads.bind_takes (h : Reads d x) (hf : ∀ a, Takes d (f a)) : Takes d (x >>= f) := fun p =>
  (h p).bind fun a p' hle => Metered.Meets.mono (hf a p') fun _ _ hlt => lt_of_lt_of_le hlt hle

theorem Reads.get {f : Parser → ParserM β} (hf : ∀ p, Reads d (f p)) : Reads d (Metered.get >>= f) := fun p =>
  Metered.Meets.bind (.get (Q := fun q p' => q = p ∧ p' = p) ⟨rfl, rfl⟩) fun q p' hq => by
    obtain ⟨rfl, rfl⟩ := hq
    exact hf p' p'

theorem TakesAt.get {f : Parser → ParserM β} (hf : TakesAt d (f p) p) : TakesAt d (Metered.get >>= f) p :=
  Metered.Meets.bind (.get (Q := fun q p' => q = p ∧ p' = p) ⟨rfl, rfl⟩) fun q p' hq => by
    obtain ⟨rfl, rfl⟩ := hq
    exact hf

theorem TakesAt.fail (e : SourceError) : TakesAt d (Metered.fail (.source e) : ParserM α) p :=
  Metered.Meets.fail ParseError.noConfusion

theorem Reads.ite {c : Prop} [Decidable c] {y : ParserM α} (hx : Reads d x) (hy : Reads d y) :
    Reads d (if c then x else y) := fun p => .ite (fun _ => hx p) fun _ => hy p

theorem TakesAt.ite {c : Prop} [Decidable c] {y : ParserM α} (hx : c → TakesAt d x p) (hy : ¬ c → TakesAt d y p) :
    TakesAt d (if c then x else y) p := Metered.Meets.ite hx hy

/-- A call is one deeper. -/
theorem Calls.called (h : Calls d x p Q) : Calls (d + 1) (called x) p Q := by
  refine Metered.Meets.rescale h (fun _ _ => trivial) fun m hm => ⟨?_, hm.2⟩
  exact Nat.succ_le_succ hm.1

theorem Reads.called (h : Reads d x) : Reads (d + 1) (called x) := fun p => (h p).called

theorem TakesAt.called (h : TakesAt d x p) : TakesAt (d + 1) (called x) p := Calls.called h

theorem Takes.called (h : Takes d x) : Takes (d + 1) (called x) := fun p => (h p).called

theorem Reads.build [Tree α] (a : α) : Reads d (build a) := fun p => by
  refine Metered.Meets.bind (.mark (Q := fun _ p' => p' = p) (fun _ => ⟨Nat.zero_le d, Nat.zero_le _⟩) fun _ => rfl) ?_
  rintro - p' rfl
  exact .pure le_rfl

/-- A loop has fuel for all tokens. -/
theorem Reads.loop {f : β → ParserM (β ⊕ γ)} (h : ∀ b p, Iterates d (f b) p) (b : β) : Reads d (loop f b) := fun p => by
  refine (Metered.Meets.repeatFor (I := fun _ p' => p'.size ≤ p.size) Parser.size
    (fun b p₁ hle => ?_) (p.size + 1) b p le_rfl (Nat.lt_succ_self _)).congr rfl
  refine (h b p₁).mono fun r p₂ hr => ?_
  cases r with
  | inl b' =>
    have hlt : p₂.size < p₁.size := hr
    exact ⟨hlt.le.trans hle, hlt⟩
  | inr c =>
    have hle' : p₂.size ≤ p₁.size := hr
    exact hle'.trans hle

theorem TakesAt.iterates {y : ParserM (β ⊕ γ)} (h : TakesAt d y p) : Iterates d y p :=
  Metered.Meets.mono h fun r p' hlt => by
    split_ifs
    · exact hlt
    · exact hlt.le

theorem Iterates.done (c : γ) : Iterates d (Pure.pure (.inr c : β ⊕ γ) : ParserM (β ⊕ γ)) p := .pure le_rfl

end Takes

/-! ### Tokens -/

section Tokens

variable {α β γ : Type} {d : ℕ} {p : Parser}

theorem quiet_syntaxError (msg : String) {Q : α → Parser → Prop} : Quiet (syntaxError msg : ParserM α) p Q := by
  intro P E hE
  exact Metered.Meets.bind (.get (Q := fun _ _ => True) trivial) fun q p' _ => .fail (hE _ (by simp))

theorem quiet_syntaxErrorNear (msg : String) {Q : α → Parser → Prop} :
    Quiet (syntaxErrorNear msg : ParserM α) p Q := by
  intro P E hE
  exact Metered.Meets.bind (.get (Q := fun _ _ => True) trivial) fun q p' _ => quiet_syntaxError _ P E hE

theorem quiet_errorExpected (what : String) {Q : α → Parser → Prop} : Quiet (errorExpected what : ParserM α) p Q :=
  quiet_syntaxErrorNear _

/-- The next token is taken from what is left, or the end was reached. -/
theorem scan_size {l l' : Lexer} {t : Token × Span} (h : l.scan = .ok (t, l')) :
    l'.lookahead = l.lookahead ∧ (l'.rest.length < l.rest.length ∨ l'.rest = l.rest ∧ t.1 = .eos) := by
  rw [Lexer.scan] at h
  split at h
  · cases h
    exact ⟨rfl, .inr ⟨rfl, rfl⟩⟩
  · cases h
  · rename_i hrest
    cases h
    exact ⟨rfl, .inl (by simp [hrest])⟩

theorem next_size {l l' : Lexer} {t : Token × Span} (h : l.next = .ok (t, l')) :
    l'.size < l.size ∨ l'.size ≤ l.size ∧ t.1 = .eos := by
  rw [Lexer.next] at h
  split at h
  · rename_i la hla
    cases h
    by_cases heos : t.1 = .eos
    · exact .inr ⟨by simp [Lexer.size], heos⟩
    · exact .inl (by simp [Lexer.size, hla, heos])
  · rename_i hnone
    obtain ⟨hla, hlt | ⟨hrest, heos⟩⟩ := scan_size h
    · exact .inl (by simpa [Lexer.size, hla, hnone] using hlt)
    · exact .inr ⟨by simp [Lexer.size, hla, hnone, hrest], heos⟩

theorem peek_size {l l' : Lexer} {t : Token} (h : l.peek = .ok (t, l')) : l'.size ≤ l.size := by
  rw [Lexer.peek] at h
  split at h
  · cases h
    exact le_rfl
  · rename_i hnone
    cases hscan : l.scan with
    | error e => simp [hscan, Except.map] at h
    | ok x =>
      obtain ⟨⟨t', span⟩, l''⟩ := x
      rw [hscan] at h
      cases h
      obtain ⟨-, hlt | ⟨hrest, heos⟩⟩ := scan_size hscan
      · simp only [Lexer.size, hnone, Option.all_none, if_true]
        split_ifs <;> omega
      · simp only [Lexer.size, hnone, Option.all_none, Option.all_some, if_true, hrest]
        simp only at heos
        simp [heos]

theorem quiet_advance (hp : p.current ≠ .eos) : Quiet advance p fun _ p' => p'.size < p.size := by
  intro P E hE
  refine .attempt (fun e he => ?_) fun a p' he => ?_
  · split at he
    · cases he
      exact hE _ ParseError.noConfusion
    · cases he
  · split at he
    · cases he
    · rename_i current span lexer hnext
      cases he
      simp only [Parser.size, if_neg hp]
      obtain hlt | ⟨hle, rfl⟩ := next_size hnext
      · split_ifs <;> omega
      · simp only [if_true]
        omega

theorem quiet_lookahead : Quiet lookahead p fun _ p' => p'.size ≤ p.size := by
  intro P E hE
  refine .attempt (fun e he => ?_) fun a p' he => ?_
  · split at he
    · cases he
      exact hE _ ParseError.noConfusion
    · cases he
  · split at he
    · cases he
    · rename_i t lexer hpeek
      cases he
      exact Nat.add_le_add_right (peek_size hpeek) _

theorem quiet_get_bind {f : Parser → ParserM α} {Q : α → Parser → Prop} (h : Quiet (f p) p Q) :
    Quiet (Metered.get >>= f) p Q := by
  intro P E hE
  refine Metered.Meets.bind (.get (Q := fun q p' => q = p ∧ p' = p) ⟨rfl, rfl⟩) fun q p' hq => ?_
  obtain ⟨rfl, rfl⟩ := hq
  exact h P E hE

theorem quiet_check (expected : Token) :
    Quiet (check expected) p fun b p' => p' = p ∧ (b = true → p.current.kind = expected.kind) :=
  quiet_get_bind fun _ _ _ => .pure ⟨rfl, of_decide_eq_true⟩

theorem quiet_checkChar (c : Char) :
    Quiet (checkChar c) p fun b p' => p' = p ∧ (b = true → p.current = charToken c) :=
  quiet_get_bind fun _ _ _ => .pure ⟨rfl, of_decide_eq_true⟩

theorem quiet_isBlockFollow :
    Quiet isBlockFollow p fun b p' => p' = p ∧ (b = false → p.current ≠ .eos) := by
  refine quiet_get_bind fun P E hE => ?_
  split
  · exact .pure ⟨rfl, nofun⟩
  · exact .pure ⟨rfl, nofun⟩
  · exact .pure ⟨rfl, nofun⟩
  · exact .pure ⟨rfl, nofun⟩
  · exact .pure ⟨rfl, nofun⟩
  · rename_i hcur
    exact .pure ⟨rfl, fun _ => hcur⟩

theorem ne_eos_of_kind {t t' : Token} (h : t.kind = t'.kind) (ht : t' ≠ .eos) : t ≠ .eos := by
  rintro rfl
  cases t' <;> first | exact ht rfl | cases h

theorem charToken_ne_eos (c : Char) : charToken c ≠ .eos := Token.noConfusion

theorem takes_advance (hp : p.current ≠ .eos) : TakesAt d advance p := (quiet_advance hp).calls

/-- Advancing over the current token, if it is the one. -/
theorem quiet_testNext {expected : Token} (he : expected ≠ .eos) :
    Quiet (testNext expected) p fun b p' => if b then p'.size < p.size else p'.size ≤ p.size := by
  intro P E hE
  refine (quiet_check expected P E hE).bind fun b p' hb => ?_
  obtain ⟨rfl, hkind⟩ := hb
  refine .ite (fun hb => ?_) fun _ => .pure le_rfl
  refine (quiet_advance (ne_eos_of_kind (hkind hb) he) P E hE).bind fun _ p'' hlt => ?_
  exact .pure hlt

theorem quiet_testNextChar (c : Char) :
    Quiet (testNextChar c) p fun b p' => if b then p'.size < p.size else p'.size ≤ p.size := by
  intro P E hE
  refine (quiet_checkChar c P E hE).bind fun b p' hb => ?_
  obtain ⟨rfl, hcur⟩ := hb
  refine .ite (fun hb => ?_) fun _ => .pure le_rfl
  have hne : p'.current ≠ .eos := fun heos => charToken_ne_eos c ((hcur hb).symm.trans heos)
  refine (quiet_advance hne P E hE).bind fun _ p'' hlt => ?_
  exact .pure hlt

theorem reads_testNext {expected : Token} (he : expected ≠ .eos) : Reads d (testNext expected) := fun _ =>
  (quiet_testNext he).calls.mono fun b p' h => by
    cases b with
    | true => exact le_of_lt h
    | false => exact h

theorem reads_testNextChar (c : Char) : Reads d (testNextChar c) := fun _ =>
  (quiet_testNextChar c).calls.mono fun b p' h => by
    cases b with
    | true => exact le_of_lt h
    | false => exact h

theorem reads_checkChar (c : Char) : Reads d (checkChar c) := fun _ =>
  (quiet_checkChar c).calls.mono fun _ _ h => le_of_eq (congrArg Parser.size h.1)

theorem reads_isBlockFollow : Reads d isBlockFollow := fun _ =>
  quiet_isBlockFollow.calls.mono fun _ _ h => le_of_eq (congrArg Parser.size h.1)

theorem reads_lookahead : Reads d lookahead := .of_quiet fun _ => quiet_lookahead

/-- What a loop with separators does each time. -/
theorem iterates_sep {x : ParserM β} {c : Char} {next : β → α} {done : γ} (h : Reads d x) :
    Iterates d (testNextChar c >>= fun b =>
      if b = true then x >>= fun a => pure (.inl (next a)) else pure (.inr done : α ⊕ γ)) p := by
  refine (quiet_testNextChar c).calls.bind fun b p' hb => .ite (fun htrue => ?_) fun hfalse => ?_
  · rw [if_pos htrue] at hb
    refine (h p').bind fun a p'' hle => ?_
    exact .pure (lt_of_le_of_lt hle hb)
  · rw [if_neg hfalse] at hb
    exact .pure hb

theorem takes_expect {expected : Token} (he : expected ≠ .eos) : Takes d (expect expected) := fun p => by
  refine (quiet_check expected).calls.bind fun b p' hb => ?_
  obtain ⟨rfl, hkind⟩ := hb
  refine .ite (fun hb => ?_) fun _ => (quiet_errorExpected _).calls
  exact (takes_advance (ne_eos_of_kind (hkind hb) he)).bind fun _ => .pure ()

theorem takes_expectChar (c : Char) : Takes d (expectChar c) := fun p => by
  refine (quiet_checkChar c).calls.bind fun b p' hb => ?_
  obtain ⟨rfl, hcur⟩ := hb
  refine .ite (fun hb => ?_) fun _ => (quiet_errorExpected _).calls
  exact (takes_advance fun heos => charToken_ne_eos c ((hcur hb).symm.trans heos)).bind fun _ => .pure ()

theorem takes_expectName : Takes d expectName := fun p => by
  refine .get ?_
  split
  · rename_i name hcur
    exact (takes_advance (by simp [hcur])).bind fun _ => .pure name
  · exact (quiet_errorExpected _).calls

theorem takes_checkMatch {close : Token} (opening : Token) (openLine : ℕ) (he : close ≠ .eos) :
    Takes d (checkMatch close opening openLine) := fun p => by
  refine (quiet_check close).calls.bind fun b p' hb => ?_
  obtain ⟨rfl, hkind⟩ := hb
  refine .ite (fun hb => ?_) fun _ => ?_
  · exact (takes_advance (ne_eos_of_kind (hkind hb) he)).bind fun _ => .pure ()
  · refine TakesAt.get ?_
    refine TakesAt.ite (fun _ => ?_) fun _ => ?_
    · exact (quiet_errorExpected _).calls
    · exact (quiet_syntaxErrorNear _).calls

/-! ### Scopes -/

theorem reads_modify {f : Parser → Parser} (hf : ∀ p, (f p).size = p.size) : Reads d (Metered.modify f) := fun p =>
  .modify (hf p).le

theorem Reads.bind_modify {f : Parser → Parser} {g : Unit → ParserM α} (hf : ∀ p, (f p).size = p.size)
    (h : Reads d (g ())) : Reads d (Metered.modify f >>= g) := (reads_modify hf).bind fun _ => h

theorem reads_syntaxError (msg : String) : Reads d (syntaxError msg : ParserM α) := fun _ => (quiet_syntaxError msg).calls

theorem reads_registerLocals (count : ℕ) : Reads d (registerLocals count) := by
  refine .get fun p => ?_
  split
  · exact .ite (reads_syntaxError _) (reads_modify fun _ => rfl)
  · exact .pure ()

theorem reads_registerLocalsNamed (names : List String) : Reads d (registerLocalsNamed names) :=
  (reads_registerLocals _).bind fun _ => reads_modify fun _ => rfl

theorem reads_checkNameUpvalue (name : String) : Reads d (checkNameUpvalue name) := by
  refine .get fun p => ?_
  split
  · refine .ite (.pure ()) ?_
    split
    · exact .pure ()
    · split
      · exact reads_syntaxError _
      · exact reads_modify fun _ => rfl
  · exact .pure ()

end Tokens

/-! ### Expressions -/

/-- What is called with one syntax level less. -/
structure Nested.Bounded (nest : Nested) (d : ℕ) : Prop where
  block : Reads d nest.block
  subExpr : ∀ limit, Takes d (nest.subExpr limit)

section Parse

variable {nest : Nested} {d : ℕ} {p : Parser} (h : nest.Bounded d)

include h

theorem takes_parseExpr : Takes (d + 1) (parseExpr nest) := (h.subExpr 0).called

theorem takes_parseExprList : Takes (d + 2) (parseExprList nest) := by
  refine Takes.called ((takes_parseExpr h).bind fun first => .loop (fun exprs p => ?_) [first])
  exact iterates_sep (takes_parseExpr h).reads

theorem takes_parseField : Takes (d + 2) (parseField nest) := by
  refine Takes.called fun p => .get ?_
  dsimp only
  split
  · refine Metered.Meets.bind (reads_lookahead p) fun next p' hle => ?_
    have hlow : ∀ {x : ParserM TableField}, Takes (d + 1) x → Calls (d + 1) x p' fun _ p'' => p''.size < p.size :=
      fun hx => Metered.Meets.mono (hx p') fun _ _ hlt => lt_of_lt_of_le hlt hle
    refine .ite (fun _ => hlow ?_) fun _ => hlow ?_
    · exact takes_expectName.bind fun name => (takes_expectChar _).reads.bind fun _ =>
        (takes_parseExpr h).reads.bind fun value => .build _
    · exact (takes_parseExpr h).bind fun value => .build _
  · rename_i hname
    refine .ite (fun hcur => ?_) fun _ => (takes_parseExpr h p).bind fun value => .build _
    refine (takes_advance (by simp [hcur, charToken])).bind fun _ => ?_
    exact (takes_parseExpr h).reads.bind fun key => (takes_expectChar _).reads.bind fun _ =>
      (takes_expectChar _).reads.bind fun _ => (takes_parseExpr h).reads.bind fun value => .build _

theorem takes_parseTableCtor : Takes (d + 3) (parseTableCtor nest) := by
  refine Takes.called fun p => .get ?_
  refine (takes_expectChar _ p).bind fun _ => ?_
  refine .bind (.loop (fun fields p' => ?_) []) fun fields => ?_
  · refine (quiet_checkChar _).calls.bind fun b p'' hb => ?_
    obtain ⟨rfl, -⟩ := hb
    refine .ite (fun _ => Iterates.done fields) fun _ => ?_
    refine TakesAt.iterates ((takes_parseField h p'').bind fun field => ?_)
    refine (reads_testNextChar _).bind fun comma => ?_
    exact .bind (.ite (.pure true) (reads_testNextChar _)) fun separated => .pure _
  · exact (takes_checkMatch _ _ (charToken_ne_eos _)).reads.bind fun _ => .build _

theorem takes_parseFuncArgs : Takes (d + 4) (parseFuncArgs nest) := by
  refine Takes.called fun p => .get ?_
  split
  · rename_i s hcur
    exact (takes_advance (by simp [hcur])).bind fun _ => (Reads.build _).bind fun arg => .pure [arg]
  · refine .ite (fun hcur => ?_) fun _ => ?_
    · refine .ite (fun _ => (quiet_syntaxErrorNear _).calls) fun _ => ?_
      refine (takes_advance (by simp [hcur, charToken])).bind fun _ => ?_
      refine (reads_checkChar _).bind fun b => .bind (.ite (.pure []) ?_) fun args => ?_
      · exact ((takes_parseExprList h).mono (by omega)).reads
      · exact (takes_checkMatch _ _ (charToken_ne_eos _)).reads.bind fun _ => .pure args
    · refine .ite (fun _ => ?_) fun _ => (quiet_syntaxErrorNear _).calls
      exact ((takes_parseTableCtor h).bind fun table => .pure [table]) p

omit h in
theorem takes_parseParam (params : List String) : Takes d (parseParam params) := fun p => by
  refine .get ?_
  split
  · refine (takes_expectName p).bind fun name => ?_
    exact (reads_testNextChar _).bind fun b => .ite (.pure _) (.pure _)
  · rename_i hcur
    exact (takes_advance (by simp [hcur])).bind fun _ => .pure _
  · exact (quiet_syntaxErrorNear _).calls

theorem takes_parseFuncBody (defSpan : Span) : Takes (d + 1) (parseFuncBody nest defSpan) := by
  refine Takes.called fun p => .get ?_
  refine (takes_expectChar _ p).bind fun _ => (reads_checkChar _).bind fun noParams => ?_
  refine .bind (.ite (.pure _) (.loop (fun params p' => (takes_parseParam params p').iterates) [])) fun x => ?_
  · obtain ⟨params, hasVarargs⟩ := x
    refine (takes_expectChar _).reads.bind fun _ => .bind_modify (fun _ => rfl) ?_
    refine (reads_registerLocalsNamed params).bind fun _ => .get fun p' => .bind_modify (fun _ => rfl) ?_
    refine h.block.bind fun body => .bind_modify (fun _ => rfl) (.get fun p'' => ?_)
    exact (takes_checkMatch _ _ (by decide)).reads.bind fun _ => .build _

theorem takes_parsePrimaryExpr : Takes (d + 2) (parsePrimaryExpr nest) := by
  refine Takes.called fun p => .get ?_
  split
  · rename_i name hcur
    exact (takes_advance (by simp [hcur])).bind fun _ => (reads_checkNameUpvalue name).bind fun _ => .build _
  · refine .ite (fun hcur => ?_) fun _ => (quiet_syntaxErrorNear _).calls
    refine (takes_advance (by simp [hcur, charToken])).bind fun _ => ?_
    exact (takes_parseExpr h).reads.bind fun expr => (takes_expectChar _).reads.bind fun _ => .build _

omit h in
/-- An expression is built that is deeper than `expr`. -/
theorem calls_deeper {expr expr' : Expr} {q : Parser} (hlt : q.size < p.size) (hdeep : expr.depth < expr'.depth) :
    Calls d (build expr' >>= fun expr' => pure (some expr')) q fun r p' =>
      p'.size ≤ p.size ∧ ∀ e ∈ r, p'.size < p.size ∧ expr.depth < e.depth := by
  refine Metered.Meets.bind (Q := fun e p' => e = expr' ∧ p' = q) ?_ fun e p' he => ?_
  · exact Metered.Meets.bind (.mark (Q := fun _ p' => p' = q) (fun _ => ⟨Nat.zero_le d, Nat.zero_le _⟩) fun _ => rfl)
      fun _ _ hq => .pure ⟨rfl, hq⟩
  · obtain ⟨rfl, rfl⟩ := he
    refine .pure ⟨hlt.le, fun e' he' => ?_⟩
    obtain rfl : e = e' := by simpa using he'
    exact ⟨hlt, hdeep⟩

/-- A suffix makes the expression deeper. -/
theorem calls_parseSuffix (expr : Expr) :
    Calls (d + 4) (parseSuffix nest expr) p fun r p' =>
      p'.size ≤ p.size ∧ ∀ e ∈ r, p'.size < p.size ∧ expr.depth < e.depth := by
  refine Metered.Meets.bind (.get (Q := fun q p' => q = p ∧ p' = p) ⟨rfl, rfl⟩) fun q p' hq => ?_
  obtain ⟨rfl, rfl⟩ := hq
  have hcall : Calls (d + 4) (parseFuncArgs nest >>= fun args => build (Expr.call expr args expr.span) >>= fun expr =>
      pure (some expr)) p' fun r p'' => p''.size ≤ p'.size ∧ ∀ e ∈ r, p''.size < p'.size ∧ expr.depth < e.depth :=
    Metered.Meets.bind (takes_parseFuncArgs h p') fun args q hlt =>
      calls_deeper hlt (Nat.lt_succ_of_le (le_max_left _ _))
  dsimp only
  split
  · exact hcall
  · rename_i hstr
    refine .ite (fun hcur => ?_) fun _ => .ite (fun hcur => ?_) fun _ => .ite (fun hcur => ?_) fun _ =>
      .ite (fun _ => hcall) fun _ => .pure ⟨le_rfl, nofun⟩
    · -- a field
      refine Metered.Meets.bind (takes_advance (by simp [hcur, charToken])) fun _ p₁ hlt₁ => ?_
      refine Metered.Meets.bind (takes_expectName p₁) fun field p₂ hlt₂ => ?_
      exact calls_deeper (hlt₂.trans hlt₁) (Nat.lt_succ_self _)
    · -- an index
      refine Metered.Meets.bind (takes_advance (by simp [hcur, charToken])) fun _ p₁ hlt₁ => ?_
      refine Metered.Meets.bind ((takes_parseExpr h).mono (by omega) p₁) fun key p₂ hlt₂ => ?_
      refine Metered.Meets.bind (takes_expectChar _ p₂) fun _ p₃ hlt₃ => ?_
      exact calls_deeper (hlt₃.trans (hlt₂.trans hlt₁)) (Nat.lt_succ_of_le (le_max_left _ _))
    · -- a method call
      refine Metered.Meets.bind (takes_advance (by simp [hcur, charToken])) fun _ p₁ hlt₁ => ?_
      refine Metered.Meets.bind (takes_expectName p₁) fun method p₂ hlt₂ => ?_
      refine Metered.Meets.bind (takes_parseFuncArgs h p₂) fun args p₃ hlt₃ => ?_
      exact calls_deeper (hlt₃.trans (hlt₂.trans hlt₁)) (Nat.lt_succ_of_le (le_max_left _ _))

omit h in
/-- A loop that makes an expression deeper each time it goes on. -/
theorem reads_deepen {step : Expr → ParserM (Option Expr)} {first : Expr}
    (hstep : ∀ expr p, Calls d (step expr) p fun r p' =>
      p'.size ≤ p.size ∧ ∀ e ∈ r, p'.size < p.size ∧ expr.depth < e.depth) :
    Reads d (loop (fun (n, expr) => do
      match ← step expr with
      | some expr =>
        looped (n + 1) expr
        pure (.inl (n + 1, expr))
      | none => pure (.inr expr)) (0, first)) := fun p => by
  refine (Metered.Meets.repeatFor (I := fun x p' => x.1 ≤ x.2.depth ∧ p'.size ≤ p.size) Parser.size
    (fun x p₁ hx => ?_) (p.size + 1) (0, first) p ⟨Nat.zero_le _, le_rfl⟩ (Nat.lt_succ_self _)).congr rfl
  obtain ⟨n, expr⟩ := x
  obtain ⟨hn, hle⟩ := hx
  refine Metered.Meets.bind (hstep expr p₁) fun r p₂ hr => ?_
  obtain ⟨hle₂, hdeep⟩ := hr
  cases r with
  | none => exact .pure (hle₂.trans hle)
  | some e =>
    obtain ⟨hlt, hlt'⟩ := hdeep e rfl
    have hmark : n + 1 ≤ e.depth := lt_of_le_of_lt hn hlt'
    refine Metered.Meets.bind (.mark (Q := fun _ p' => p' = p₂) (fun _ => ⟨Nat.zero_le d, hmark⟩) fun _ => rfl) ?_
    rintro - p' rfl
    exact .pure ⟨⟨hmark, hlt.le.trans hle⟩, hlt⟩

theorem takes_parseSuffixedExpr : Takes (d + 5) (parseSuffixedExpr nest) := by
  refine Takes.called (((takes_parsePrimaryExpr h).mono (by omega)).bind fun primary => ?_)
  exact reads_deepen fun expr p => calls_parseSuffix h expr

theorem takes_parseSimpleExpr : Takes (d + 6) (parseSimpleExpr nest) := by
  refine Takes.called fun p => .get ?_
  have hliteral : p.current ≠ .eos → ∀ expr : Expr, TakesAt (d + 5) (advance >>= fun _ => build expr) p :=
    fun hne expr => (takes_advance hne).bind fun _ => .build expr
  dsimp only
  split
  · rename_i hcur
    exact hliteral (by simp [hcur]) _
  · rename_i hcur
    exact hliteral (by simp [hcur]) _
  · rename_i hcur
    exact hliteral (by simp [hcur]) _
  · rename_i hcur
    exact hliteral (by simp [hcur]) _
  · rename_i hcur
    exact hliteral (by simp [hcur]) _
  · rename_i hcur
    exact hliteral (by simp [hcur]) _
  · rename_i hcur
    refine (takes_advance (by simp [hcur])).bind fun _ => ?_
    exact ((takes_parseFuncBody h p.span).mono (by omega)).reads.bind fun body => .build _
  · exact .ite (fun _ => (takes_parseTableCtor h).mono (by omega) p) fun _ => takes_parseSuffixedExpr h p

omit h in
theorem ne_eos_of_unaryOp {t : Token} {op : UnOp} (h : getUnaryOp t = some op) : t ≠ .eos := by
  rintro rfl
  cases h

omit h in
theorem ne_eos_of_binaryOp {t : Token} {op : BinOp} (h : getBinaryOp t = some op) : t ≠ .eos := by
  rintro rfl
  cases h

theorem takes_parseOperand : Takes (d + 6) (parseOperand nest) := fun p => by
  refine .get ?_
  split
  · rename_i op hop
    refine (takes_advance (ne_eos_of_unaryOp hop)).bind fun _ => ?_
    exact ((h.subExpr _).mono (by omega)).reads.bind fun operand => .build _
  · exact takes_parseSimpleExpr h p

theorem calls_parseBinary (limit : ℕ) (span : Span) (expr : Expr) :
    Calls (d + 6) (parseBinary nest limit span expr) p fun r p' =>
      p'.size ≤ p.size ∧ ∀ e ∈ r, p'.size < p.size ∧ expr.depth < e.depth := by
  refine Metered.Meets.bind (.get (Q := fun q p' => q = p ∧ p' = p) ⟨rfl, rfl⟩) fun q p' hq => ?_
  obtain ⟨rfl, rfl⟩ := hq
  split
  · rename_i op hop
    refine .ite (fun _ => .pure ⟨le_rfl, nofun⟩) fun _ => ?_
    refine Metered.Meets.bind (takes_advance (ne_eos_of_binaryOp hop)) fun _ p₁ hlt₁ => ?_
    refine Metered.Meets.bind ((h.subExpr _).mono (by omega) p₁) fun right p₂ hlt₂ => ?_
    exact calls_deeper (hlt₂.trans hlt₁) (Nat.lt_succ_of_le (le_max_left _ _))
  · exact .pure ⟨le_rfl, nofun⟩

theorem takes_parseSubExpr (limit : ℕ) : Takes (d + 7) (parseSubExpr nest limit) := by
  refine Takes.called fun p => .get ?_
  exact (takes_parseOperand h).bind (fun first => reads_deepen fun expr p' => calls_parseBinary h limit p.span expr) p

/-! ### Statements -/

omit h in
theorem reads_some {x : ParserM α} (hx : Reads d x) : Reads d (some <$> x) := hx.bind fun a => .pure (some a)

/-- What begins with a token that was seen. -/
def Starts (d : ℕ) (x : ParserM α) : Prop := ∀ p : Parser, p.current ≠ .eos → TakesAt d x p

omit h in
theorem starts_advance {f : Token × Span → ParserM α} (hf : ∀ t, Reads d (f t)) :
    Starts (d + 1) (called (advance >>= f)) := fun _ hp => ((takes_advance hp).bind hf).called

theorem starts_parseIf (span : Span) : Starts (d + 2) (parseIf nest span) := by
  have hbranch : ∀ (p : Parser) (r : Expr → Block → List Expr × List Block), p.current ≠ .eos →
      TakesAt (d + 1) (advance >>= fun _ => parseExpr nest >>= fun condition => expect .then >>= fun _ =>
        nest.block >>= fun body => pure (.inl (r condition body) : _ ⊕ (List Expr × List Block))) p := by
    intro p r hp
    exact (takes_advance hp).bind fun _ => (takes_parseExpr h).reads.bind fun condition =>
      (takes_expect (by decide)).reads.bind fun _ => (h.block.mono (by omega)).bind fun body => .pure _
  refine starts_advance fun _ => (takes_parseExpr h).reads.bind fun condition => ?_
  refine (takes_expect (by decide)).reads.bind fun _ => (h.block.mono (by omega)).bind fun body => ?_
  refine .bind (.loop (fun x p => ?_) _) fun x => ?_
  · refine (quiet_check .elseIf).calls.bind fun b p' hb => ?_
    obtain ⟨rfl, hkind⟩ := hb
    refine .ite (fun hb => ?_) fun _ => Iterates.done _
    exact (hbranch p' _ (ne_eos_of_kind (hkind hb) (by decide))).iterates
  · refine (reads_testNext (by decide)).bind fun hasElse => ?_
    refine .bind (.ite (reads_some (h.block.mono (by omega))) (.pure none)) fun elseBody => .get fun p => ?_
    exact (takes_checkMatch _ _ (by decide)).reads.bind fun _ => .build _

theorem reads_parseLoopBody : Reads d (parseLoopBody nest) :=
  .bind_modify (fun _ => rfl) (h.block.bind fun body => .bind_modify (fun _ => rfl) (.pure body))

theorem starts_parseWhile (span : Span) : Starts (d + 2) (parseWhile nest span) := by
  refine starts_advance fun _ => (takes_parseExpr h).reads.bind fun condition => ?_
  refine (takes_expect (by decide)).reads.bind fun _ => ((reads_parseLoopBody h).mono (by omega)).bind fun body => ?_
  exact .get fun p => (takes_checkMatch _ _ (by decide)).reads.bind fun _ => .build _

theorem starts_parseDo (span : Span) : Starts (d + 1) (parseDo nest span) := by
  refine starts_advance fun _ => h.block.bind fun body => .get fun p => ?_
  exact (takes_checkMatch _ _ (by decide)).reads.bind fun _ => .build _

theorem reads_parseNumericFor (name : String) (openLine : ℕ) (span : Span) :
    Reads (d + 2) (parseNumericFor nest name openLine span) := by
  refine Reads.called ((reads_registerLocals 3).bind fun _ => (reads_registerLocalsNamed _).bind fun _ => ?_)
  refine (takes_expectChar _).reads.bind fun _ => (takes_parseExpr h).reads.bind fun start => ?_
  refine (takes_expectChar _).reads.bind fun _ => (takes_parseExpr h).reads.bind fun stop => ?_
  refine (reads_testNextChar _).bind fun hasStep => ?_
  refine .bind (.ite (reads_some (takes_parseExpr h).reads) (.pure none)) fun step => ?_
  refine (takes_expect (by decide)).reads.bind fun _ => ((reads_parseLoopBody h).mono (by omega)).bind fun body => ?_
  exact .get fun p => (takes_checkMatch _ _ (by decide)).reads.bind fun _ => .build _

omit h in
theorem reads_parseNames (sep : Char) (first : List String) : Reads d (parseNames sep first) :=
  .loop (fun _ _ => iterates_sep takes_expectName.reads) first

theorem reads_parseGenericFor (firstName : String) (openLine : ℕ) (span : Span) :
    Reads (d + 3) (parseGenericFor nest firstName openLine span) := by
  refine Reads.called ((reads_parseNames _ _).bind fun names => (reads_registerLocals 3).bind fun _ => ?_)
  refine (reads_registerLocalsNamed _).bind fun _ => (takes_expect (by decide)).reads.bind fun _ => .get fun p => ?_
  refine (takes_parseExprList h).reads.bind fun iterators => (takes_expect (by decide)).reads.bind fun _ => ?_
  refine ((reads_parseLoopBody h).mono (by omega)).bind fun body => .get fun p => ?_
  exact (takes_checkMatch _ _ (by decide)).reads.bind fun _ => .build _

theorem starts_parseFor (span : Span) : Starts (d + 4) (parseFor nest span) := by
  refine starts_advance fun _ => takes_expectName.reads.bind fun name => .get fun p => ?_
  refine .ite ((reads_parseNumericFor h _ _ _).mono (by omega)) (.ite (reads_parseGenericFor h _ _ _) ?_)
  exact fun _ => (quiet_syntaxErrorNear _).calls

theorem starts_parseRepeat (span : Span) : Starts (d + 2) (parseRepeat nest span) := by
  refine starts_advance fun _ => .bind_modify (fun _ => rfl) ((h.block.mono (by omega)).bind fun body => ?_)
  refine (takes_checkMatch _ _ (by decide)).reads.bind fun _ => (takes_parseExpr h).reads.bind fun condition => ?_
  exact .bind_modify (fun _ => rfl) (.build _)

omit h in
theorem reads_parseFuncName : Reads d parseFuncName := by
  refine .get fun p => takes_expectName.reads.bind fun first => (reads_parseNames _ _).bind fun parts => ?_
  refine (reads_testNextChar _).bind fun hasMethod => ?_
  exact .bind (.ite (reads_some takes_expectName.reads) (.pure none)) fun method => .pure _

theorem starts_parseFuncDecl (span : Span) : Starts (d + 2) (parseFuncDecl nest span) :=
  starts_advance fun _ => reads_parseFuncName.bind fun _ => (takes_parseFuncBody h span).reads.bind fun _ => .build _

theorem starts_parseLocal (span : Span) : Starts (d + 3) (parseLocal nest span) := by
  refine starts_advance fun _ => (reads_testNext (by decide)).bind fun function => .ite ?_ ?_
  · refine takes_expectName.reads.bind fun name => (reads_registerLocalsNamed _).bind fun _ => ?_
    exact ((takes_parseFuncBody h span).mono (by omega)).reads.bind fun body => .build _
  · refine takes_expectName.reads.bind fun first => (reads_parseNames _ _).bind fun names => ?_
    refine (reads_registerLocalsNamed _).bind fun _ => (reads_testNextChar _).bind fun hasValues => ?_
    exact .bind (.ite (takes_parseExprList h).reads (.pure [])) fun values => .build _

theorem starts_parseReturn (span : Span) : Starts (d + 3) (parseReturn nest span) := by
  refine starts_advance fun _ => reads_isBlockFollow.bind fun follow => (reads_checkChar _).bind fun semicolon => ?_
  exact .bind (.ite (.pure []) (takes_parseExprList h).reads) fun values => .build _

omit h in
theorem starts_parseBreak (span : Span) : Starts (d + 1) (parseBreak span) :=
  starts_advance fun _ => .get fun _ => .ite (fun _ => (quiet_syntaxErrorNear _).calls) (.build _)

theorem takes_parseExprStat (span : Span) : Takes (d + 6) (parseExprStat nest span) := by
  refine Takes.called ((takes_parseSuffixedExpr h).bind fun expr => .get fun p => .ite ?_ (.ite (.build _) ?_))
  · refine .bind (.loop (fun targets p => iterates_sep (takes_parseSuffixedExpr h).reads) [expr]) fun targets => ?_
    refine (takes_expectChar _).reads.bind fun _ => ?_
    exact ((takes_parseExprList h).mono (by omega)).reads.bind fun values => .build _
  · exact fun _ => (quiet_errorExpected _).calls

theorem starts_parseStat : Starts (d + 7) (parseStat nest) := fun p hp => by
  have hmono : ∀ {k : ℕ} {x : ParserM Stat}, k ≤ d + 6 → Starts k x → TakesAt (d + 6) x p := fun hk hx => (hx p hp).mono hk
  refine TakesAt.called (.get ?_)
  split
  · exact hmono (by omega) (starts_parseIf h _)
  · exact hmono (by omega) (starts_parseWhile h _)
  · exact hmono (by omega) (starts_parseDo h _)
  · exact hmono (by omega) (starts_parseFor h _)
  · exact hmono (by omega) (starts_parseRepeat h _)
  · exact hmono (by omega) (starts_parseFuncDecl h _)
  · exact hmono (by omega) (starts_parseLocal h _)
  · exact hmono (by omega) (starts_parseReturn h _)
  · exact hmono (k := d + 1) (by omega) (starts_parseBreak _)
  · exact takes_parseExprStat h _ p

theorem reads_parseBlock : Reads (d + 8) (parseBlock nest) := by
  refine Reads.called (.get fun p => .bind (.loop (fun stmts p' => ?_) []) fun stmts => ?_)
  · refine quiet_isBlockFollow.calls.bind fun b p'' hb => ?_
    obtain ⟨rfl, hne⟩ := hb
    refine .ite (fun _ => Iterates.done stmts) fun hfalse => ?_
    refine TakesAt.iterates ((starts_parseStat h p'' (hne (by simpa using hfalse))).bind fun stmt => ?_)
    exact (reads_testNextChar _).bind fun _ => .pure _
  · exact .bind_modify (fun _ => rfl) (.pure stmts)

end Parse

/-- Eight calls nest at most for each syntax level. -/
theorem bounded_nested (levels : ℕ) : (nested levels).Bounded (8 * levels + 1) := by
  induction levels with
  | zero =>
    constructor
    · exact Reads.called (reads_syntaxError _)
    · exact fun limit => Takes.called fun p => (quiet_syntaxError _).calls
  | succ levels ih =>
    constructor
    · exact reads_parseBlock ih
    · exact fun limit => (takes_parseSubExpr ih limit).mono (by omega)

theorem reads_parseChunk : Reads (8 * maxSyntaxLevels + 2) parseChunk := by
  refine Reads.called ((bounded_nested maxSyntaxLevels).block.bind fun block => ?_)
  refine .bind (fun p => (quiet_check .eos).calls.mono fun _ _ hb => le_of_eq (congrArg Parser.size hb.1)) fun b => ?_
  exact .ite (.pure block) fun _ => (quiet_errorExpected _).calls

end Rilua.Compiler
