import Rilua.Compiler.ParserReads

/-! How deep the trees are that the parser builds. A syntax level adds the runs of two loops to the depth, that of
    the suffixes and that of the binary operators; a level that is not entered adds nothing. -/

namespace Rilua.Compiler

open Lib

/-- Where no loop has run more than `c` times, no tree is deeper than `b`. -/
def treePolicy (c b : ℕ) : Metered.Policy Marks where
  guard := ⟨{m | m .loop ≤ c}, fun _ _ hle hm => (hle .loop).trans hm⟩
  allowed := {m | m .tree ≤ b}
  supClosed := by
    intro m (h : m .tree ≤ b) m' (h' : m' .tree ≤ b)
    exact max_le h h'
  bot_mem := Nat.zero_le b

theorem mem_guard {c b : ℕ} {m : Marks} : m ∈ (treePolicy c b).guard ↔ m .loop ≤ c := Iff.rfl

theorem mem_allowed {c b : ℕ} {m : Marks} : m ∈ (treePolicy c b).allowed ↔ m .tree ≤ b := Iff.rfl

section Grows

variable {α β γ : Type} {c b b' : ℕ} {x : ParserM α} {f : α → ParserM β} {Q Q' : α → Prop} {R : β → Prop}

/-- Where no loop of `x` has run more than `c` times, no tree is deeper than `b`, and the result is in `Q`. -/
def Grows (c b : ℕ) (x : ParserM α) (Q : α → Prop) : Prop :=
  ∀ p, Metered.Meets (treePolicy c b) (fun _ => True) x p fun a _ => Q a

theorem Quiet.grows (h : ∀ p, ∃ Q', Quiet x p Q') : Grows c b x fun _ => True := fun p => by
  obtain ⟨Q', hx⟩ := h p
  exact (hx (treePolicy c b) _ fun _ _ => trivial).mono fun _ _ _ => trivial

namespace Grows

theorem pure {a : α} (h : Q a) : Grows c b (Pure.pure a : ParserM α) Q := fun _ => .pure h

theorem bind (h : Grows c b x Q) (hf : ∀ a, Q a → Grows c b (f a) R) : Grows c b (x >>= f) R := fun p =>
  (h p).bind fun a p' hQ => hf a hQ p'

theorem mono (h : Grows c b x Q) (hb : b ≤ b') (hQ : ∀ a, Q a → Q' a) : Grows c b' x Q' := fun p => by
  have hrelax : Metered.Meets (treePolicy c b') (fun _ => True) x p fun a _ => Q a :=
    (h p).relax (fun _ => id) fun _ hm => mem_allowed.mpr ((mem_allowed.mp hm).trans hb)
  exact hrelax.mono fun a _ => hQ a

theorem get {f : Parser → ParserM β} (hf : ∀ p, Grows c b (f p) R) : Grows c b (Metered.get >>= f) R := fun _ =>
  Metered.Meets.bind (.get (Q := fun _ _ => True) trivial) fun q p' _ => hf q p'

theorem ite {p : Prop} [Decidable p] {y : ParserM α} (hx : Grows c b x Q) (hy : Grows c b y Q) :
    Grows c b (if p then x else y) Q := fun q => .ite (fun _ => hx q) fun _ => hy q

theorem called (h : Grows c b x Q) : Grows c b (called x) Q := by
  intro p
  refine (h p).rescale (fun m (hm : _ ≤ c) => ?_) fun m (hm : m .tree ≤ b) => ?_
  · exact mem_guard.mpr hm
  · exact mem_allowed.mpr hm

theorem build [Tree α] {a : α} (hb : Tree.depth a ≤ b) (h : Q a) : Grows c b (build a) Q := fun _ =>
  Metered.Meets.bind (.mark (Q := fun _ _ => True) (fun _ => mem_allowed.mpr hb) fun _ => trivial) fun _ _ _ => .pure h

theorem some (h : Grows c b x Q) : Grows c b (some <$> x) fun r => ∀ a ∈ r, Q a :=
  h.bind fun a ha => .pure fun a' ha' => by
    obtain rfl : a = a' := by simpa using ha'
    exact ha

theorem modify {f : Parser → Parser} {g : Unit → ParserM α} (h : Grows c b (g ()) Q) :
    Grows c b (Metered.modify f >>= g) Q := fun _ =>
  Metered.Meets.bind (.modify (Q := fun _ _ => True) trivial) fun _ p' _ => h p'

end Grows

/-- A loop that keeps an invariant. -/
theorem grows_loop {f : β → ParserM (β ⊕ γ)} (I : β → Prop) {R : γ → Prop}
    (h : ∀ a, I a → Grows c b (f a) (Sum.elim I R)) {a : β} (ha : I a) : Grows c b (loop f a) R := fun p => by
  refine (Metered.Meets.repeatFor_of_exhausted (I := fun a _ => I a) trivial (fun a p' ha => ?_) (p.size + 1) a p ha).congr rfl
  refine (h a ha p').mono fun r _ hr => ?_
  cases r with
  | inl a' => exact hr
  | inr c => exact hr

/-- A list that is read with separators. -/
theorem grows_sep {x : ParserM α} {sep : Char} {depth : List α → ℕ} {k : ℕ} (hx : Grows c b x fun a => depth [a] ≤ k)
    (happend : ∀ as a, depth as ≤ k → depth [a] ≤ k → depth (as ++ [a]) ≤ k) (as : List α) (has : depth as ≤ k) :
    Grows c b (loop (fun as => do
      if ← testNextChar sep then
        let a ← x
        pure (.inl (as ++ [a]))
      else pure (.inr as)) as) fun as => depth as ≤ k := by
  refine grows_loop (fun as => depth as ≤ k) (fun as has => ?_) has
  refine (Quiet.grows fun p => ⟨_, quiet_testNextChar sep⟩).bind fun comma _ => ?_
  exact .ite (hx.bind fun a ha => .pure (happend as a has ha)) (.pure has)

/-! ### Functions that build nothing -/

/-- `x` builds nothing. -/
def Treeless (x : ParserM α) : Prop := ∀ c b, Grows c b x fun _ => True

theorem Treeless.then (hx : Treeless x) (hf : ∀ a, Grows c b (f a) R) : Grows c b (x >>= f) R :=
  (hx c b).bind fun a _ => hf a

theorem treeless_of_quiet (h : ∀ p, ∃ Q', Quiet x p Q') : Treeless x := fun _ _ => Quiet.grows h

theorem treeless_pure (a : α) : Treeless (pure a : ParserM α) := fun _ _ => .pure trivial

theorem treeless_advance : Treeless advance := fun _ _ _ => .attempt (fun _ _ => trivial) fun _ _ _ => trivial

theorem grows_syntaxError (msg : String) : Grows c b (syntaxError msg : ParserM α) Q := fun _ =>
  quiet_syntaxError msg _ _ fun _ _ => trivial

theorem grows_syntaxErrorNear (msg : String) : Grows c b (syntaxErrorNear msg : ParserM α) Q := fun _ =>
  quiet_syntaxErrorNear msg _ _ fun _ _ => trivial

theorem grows_errorExpected (what : String) : Grows c b (errorExpected what : ParserM α) Q := grows_syntaxErrorNear _

theorem treeless_lookahead : Treeless lookahead := treeless_of_quiet fun _ => ⟨_, quiet_lookahead⟩

theorem treeless_check (t : Token) : Treeless (check t) := treeless_of_quiet fun _ => ⟨_, quiet_check t⟩

theorem treeless_checkChar (ch : Char) : Treeless (checkChar ch) := treeless_of_quiet fun _ => ⟨_, quiet_checkChar ch⟩

theorem treeless_isBlockFollow : Treeless isBlockFollow := treeless_of_quiet fun _ => ⟨_, quiet_isBlockFollow⟩

theorem treeless_testNextChar (ch : Char) : Treeless (testNextChar ch) :=
  treeless_of_quiet fun _ => ⟨_, quiet_testNextChar ch⟩

theorem treeless_testNext (t : Token) : Treeless (testNext t) := fun _ _ =>
  (treeless_check t).then fun _ => .ite (treeless_advance.then fun _ => .pure trivial) (.pure trivial)

theorem treeless_expect (t : Token) : Treeless (expect t) := fun _ _ =>
  (treeless_check t).then fun _ => .ite (treeless_advance.then fun _ => .pure trivial) (grows_errorExpected _)

theorem treeless_expectChar (ch : Char) : Treeless (expectChar ch) := fun _ _ =>
  (treeless_checkChar ch).then fun _ => .ite (treeless_advance.then fun _ => .pure trivial) (grows_errorExpected _)

theorem treeless_expectName : Treeless expectName := fun _ _ => .get fun p => by
  split
  · exact treeless_advance.then fun _ => .pure trivial
  · exact grows_errorExpected _

theorem treeless_checkMatch (close opening : Token) (openLine : ℕ) : Treeless (checkMatch close opening openLine) :=
  fun _ _ => (treeless_check close).then fun _ => .ite (treeless_advance.then fun _ => .pure trivial)
    (.get fun _ => .ite (grows_errorExpected _) (grows_syntaxErrorNear _))

theorem treeless_registerLocals (count : ℕ) : Treeless (registerLocals count) := fun _ _ => .get fun p => by
  split
  · exact .ite (grows_syntaxError _) fun _ => .modify trivial
  · exact .pure trivial

theorem treeless_registerLocalsNamed (names : List String) : Treeless (registerLocalsNamed names) := fun _ _ =>
  (treeless_registerLocals _).then fun _ _ => .modify trivial

theorem treeless_checkNameUpvalue (name : String) : Treeless (checkNameUpvalue name) := fun _ _ => .get fun p => by
  split
  · refine .ite (.pure trivial) ?_
    split
    · exact .pure trivial
    · split
      · exact grows_syntaxError _
      · exact fun _ => .modify trivial
  · exact .pure trivial

theorem treeless_loop {f : β → ParserM (β ⊕ γ)} (hf : ∀ a, Treeless (f a)) (a : β) : Treeless (loop f a) := fun c b =>
  grows_loop (fun _ => True) (fun a _ => (hf a c b).mono le_rfl fun r _ => by cases r <;> trivial) trivial

theorem treeless_parseNames (sep : Char) (first : List String) : Treeless (parseNames sep first) :=
  treeless_loop (fun _ _ _ => (treeless_testNextChar sep).then fun _ =>
    .ite (treeless_expectName.then fun _ => .pure trivial) (.pure trivial)) first

theorem treeless_parseParam (params : List String) : Treeless (parseParam params) := fun _ _ => .get fun p => by
  split
  · exact treeless_expectName.then fun _ => (treeless_testNextChar _).then fun _ => .ite (.pure trivial) (.pure trivial)
  · exact treeless_advance.then fun _ => .pure trivial
  · exact grows_syntaxErrorNear _

theorem Treeless.some {x : ParserM α} (hx : Treeless x) : Treeless (some <$> x) := fun _ _ => hx.then fun _ => .pure trivial

theorem Treeless.ite {p : Prop} [Decidable p] {x y : ParserM α} (hx : Treeless x) (hy : Treeless y) :
    Treeless (if p then x else y) := fun c b => .ite (hx c b) (hy c b)

theorem treeless_parseFuncName : Treeless parseFuncName := fun _ _ => .get fun _ =>
  treeless_expectName.then fun _ => (treeless_parseNames _ _).then fun _ => (treeless_testNextChar _).then fun _ =>
    (Treeless.ite treeless_expectName.some (treeless_pure none)).then fun _ => .pure trivial

end Grows

/-! ### Lists of trees -/

theorem exprsDepth_append (es : List Expr) (e : Expr) : exprsDepth (es ++ [e]) = max (exprsDepth es) e.depth := by
  induction es with
  | nil => simp [exprsDepth]
  | cons e' es ih => simp [exprsDepth, ih, max_assoc]

theorem fieldsDepth_append (fs : List TableField) (f : TableField) :
    fieldsDepth (fs ++ [f]) = max (fieldsDepth fs) f.depth := by
  induction fs with
  | nil => simp [fieldsDepth]
  | cons f' fs ih => simp [fieldsDepth, ih, max_assoc]

theorem blockDepth_append (stats : List Stat) (stat : Stat) :
    blockDepth (stats ++ [stat]) = max (blockDepth stats) stat.depth := by
  induction stats with
  | nil => simp [blockDepth]
  | cons s stats ih => simp [blockDepth, ih, max_assoc]

theorem blocksDepth_append (bodies : List Block) (body : Block) :
    blocksDepth (bodies ++ [body]) = max (blocksDepth bodies) (blockDepth body) := by
  induction bodies with
  | nil => simp [blocksDepth]
  | cons b bodies ih => simp [blocksDepth, ih, max_assoc]

/-! ### Expressions -/

/-- What is called with one syntax level less builds no tree deeper than `t`. -/
structure Nested.Shallow (nest : Nested) (c t : ℕ) : Prop where
  block : Grows c t nest.block fun stats => blockDepth stats ≤ t
  subExpr : ∀ limit, Grows c t (nest.subExpr limit) fun expr => expr.depth ≤ t

section Parse

variable {nest : Nested} {c t b : ℕ} {p : Parser} (h : nest.Shallow c t)

include h

theorem grows_parseExpr (hb : t ≤ b) : Grows c b (parseExpr nest) fun expr => expr.depth ≤ t :=
  ((h.subExpr 0).mono hb fun _ => id).called

theorem grows_block (hb : t ≤ b) : Grows c b nest.block fun stats => blockDepth stats ≤ t := h.block.mono hb fun _ => id

theorem grows_parseExprList (hb : t ≤ b) : Grows c b (parseExprList nest) fun exprs => exprsDepth exprs ≤ t := by
  refine Grows.called ((grows_parseExpr h hb).bind fun first hfirst => ?_)
  have hone : ∀ e : Expr, exprsDepth [e] ≤ t ↔ e.depth ≤ t := fun e => by simp [exprsDepth]
  refine grows_sep (k := t) ((grows_parseExpr h hb).mono le_rfl fun e => (hone e).mpr) (fun es e hes he => ?_) [first]
    ((hone first).mpr hfirst)
  rw [exprsDepth_append]
  exact max_le hes ((hone e).mp he)

theorem grows_parseField (hb : t + 1 ≤ b) : Grows c b (parseField nest) fun field => field.depth ≤ t + 1 := by
  have hexpr := grows_parseExpr h (Nat.le_of_succ_le hb)
  refine Grows.called (.get fun p => ?_)
  have hvalue : Grows c b (parseExpr nest >>= fun value => build (TableField.valueField value p.span))
      fun field => field.depth ≤ t + 1 :=
    hexpr.bind fun value hv => .build ((Nat.succ_le_succ hv).trans hb) (Nat.succ_le_succ hv)
  dsimp only
  split
  · refine treeless_lookahead.then fun next => .ite ?_ hvalue
    refine treeless_expectName.then fun name => (treeless_expectChar _).then fun _ => hexpr.bind fun value hv => ?_
    exact .build ((Nat.succ_le_succ hv).trans hb) (Nat.succ_le_succ hv)
  · refine .ite ?_ hvalue
    refine treeless_advance.then fun _ => hexpr.bind fun key hk => (treeless_expectChar _).then fun _ => ?_
    refine (treeless_expectChar _).then fun _ => hexpr.bind fun value hv => ?_
    exact .build ((Nat.succ_le_succ (max_le hk hv)).trans hb) (Nat.succ_le_succ (max_le hk hv))

theorem grows_parseTableCtor (hb : t + 2 ≤ b) : Grows c b (parseTableCtor nest) fun expr => expr.depth ≤ t + 2 := by
  refine Grows.called (.get fun p => (treeless_expectChar _).then fun _ => ?_)
  refine .bind (Q := fun fields => fieldsDepth fields ≤ t + 1) ?_ fun fields hf => ?_
  · refine grows_loop (fun fields => fieldsDepth fields ≤ t + 1) (fun fields hf => ?_) (Nat.zero_le _)
    refine (treeless_checkChar _).then fun b => .ite (.pure hf) ?_
    refine (grows_parseField h (Nat.le_of_succ_le hb)).bind fun field hfield => ?_
    have hmore : fieldsDepth (fields ++ [field]) ≤ t + 1 := by
      rw [fieldsDepth_append]
      exact max_le hf hfield
    refine (treeless_testNextChar _).then fun comma => ?_
    refine (Treeless.ite (treeless_pure true) (treeless_testNextChar _)).then fun separated => .pure ?_
    split_ifs
    · exact hmore
    · exact hmore
  · refine (treeless_checkMatch _ _ _).then fun _ => ?_
    exact .build ((Nat.succ_le_succ hf).trans hb) (Nat.succ_le_succ hf)

theorem grows_parseFuncArgs (hb : t + 2 ≤ b) : Grows c b (parseFuncArgs nest) fun args => exprsDepth args ≤ t + 2 := by
  refine Grows.called (.get fun p => ?_)
  split
  · refine treeless_advance.then fun _ => .bind (Q := fun e => e.depth ≤ 1) (.build ?_ le_rfl) fun arg harg => ?_
    · exact le_trans (by change 1 ≤ t + 2; omega) hb
    · exact .pure (by simpa [exprsDepth] using harg.trans (by omega))
  · refine .ite (.ite (grows_syntaxErrorNear _) ?_) (.ite ?_ (grows_syntaxErrorNear _))
    · refine treeless_advance.then fun _ => (treeless_checkChar _).then fun noArgs => ?_
      refine .bind (Q := fun args => exprsDepth args ≤ t) ?_ fun args hargs => ?_
      · exact .ite (.pure (Nat.zero_le t)) (grows_parseExprList h (by omega))
      · exact (treeless_checkMatch _ _ _).then fun _ => .pure (hargs.trans (by omega))
    · refine (grows_parseTableCtor h hb).bind fun table htable => .pure ?_
      simpa [exprsDepth] using htable

theorem grows_parseFuncBody (hb : t + 1 ≤ b) (defSpan : Span) :
    Grows c b (parseFuncBody nest defSpan) fun body => body.depth ≤ t + 1 := by
  refine Grows.called (.get fun p => (treeless_expectChar _).then fun _ => (treeless_checkChar _).then fun noParams => ?_)
  refine (Treeless.ite (treeless_pure _) (treeless_loop treeless_parseParam [])).then fun x => ?_
  obtain ⟨params, hasVarargs⟩ := x
  refine (treeless_expectChar _).then fun _ => .modify ((treeless_registerLocalsNamed _).then fun _ => ?_)
  refine .get fun p' => .modify ((grows_block h (by omega)).bind fun body hbody => .modify (.get fun p'' => ?_))
  refine (treeless_checkMatch _ _ _).then fun _ => ?_
  exact .build ((Nat.succ_le_succ hbody).trans hb) (Nat.succ_le_succ hbody)

theorem grows_parsePrimaryExpr (hb : t + 1 ≤ b) : Grows c b (parsePrimaryExpr nest) fun expr => expr.depth ≤ t + 1 := by
  refine Grows.called (.get fun p => ?_)
  split
  · refine treeless_advance.then fun _ => (treeless_checkNameUpvalue _).then fun _ => ?_
    exact .build (le_trans (Nat.succ_le_succ (Nat.zero_le t)) hb) (Nat.succ_le_succ (Nat.zero_le t))
  · refine .ite ?_ (grows_syntaxErrorNear _)
    refine treeless_advance.then fun _ => (grows_parseExpr h (by omega)).bind fun expr he => ?_
    exact (treeless_expectChar _).then fun _ => .build ((Nat.succ_le_succ he).trans hb) (Nat.succ_le_succ he)

/-- A suffix adds one to the depth. -/
theorem grows_parseSuffix {k : ℕ} (hk : t + 2 ≤ k) (hb : k + 1 ≤ b) {expr : Expr} (hexpr : expr.depth ≤ k) :
    Grows c b (parseSuffix nest expr) fun r => ∀ e ∈ r, e.depth ≤ k + 1 := by
  have hbuild : ∀ e : Expr, e.depth ≤ k + 1 →
      Grows c b (build e >>= fun e => pure (some e)) fun r => ∀ e ∈ r, e.depth ≤ k + 1 := fun e he =>
    .bind (Q := fun e => e.depth ≤ k + 1) (.build (he.trans hb) he) fun e he => .pure (by simpa using he)
  have hargs := grows_parseFuncArgs h (by omega : t + 2 ≤ b)
  have hcall : Grows c b (parseFuncArgs nest >>= fun args => build (Expr.call expr args expr.span) >>= fun e =>
      pure (some e)) fun r => ∀ e ∈ r, e.depth ≤ k + 1 :=
    hargs.bind fun args ha => hbuild _ (Nat.succ_le_succ (max_le hexpr (ha.trans hk)))
  refine .get fun p => ?_
  dsimp only
  split
  · exact hcall
  · refine .ite ?_ (.ite ?_ (.ite ?_ (.ite hcall (.pure nofun))))
    · exact treeless_advance.then fun _ => treeless_expectName.then fun field => hbuild _ (Nat.succ_le_succ hexpr)
    · refine treeless_advance.then fun _ => (grows_parseExpr h (by omega)).bind fun key hkey => ?_
      exact (treeless_expectChar _).then fun _ => hbuild _ (Nat.succ_le_succ (max_le hexpr (hkey.trans (by omega))))
    · refine treeless_advance.then fun _ => treeless_expectName.then fun method => hargs.bind fun args ha => ?_
      exact hbuild _ (Nat.succ_le_succ (max_le hexpr (ha.trans hk)))

omit h in
/-- A loop that adds one to the depth each time it goes on, for at most `c` times. -/
theorem grows_deepen {step : Expr → ParserM (Option Expr)} {first : Expr} {k : ℕ} (hb : k + c ≤ b)
    (hfirst : first.depth ≤ k)
    (hstep : ∀ n < c + 1, ∀ expr : Expr, expr.depth ≤ k + n → Grows c (k + n + 1) (step expr) fun r => ∀ e ∈ r, e.depth ≤ k + n + 1) :
    Grows c (b + 1) (loop (fun (n, expr) => do
      match ← step expr with
      | some expr =>
        looped (n + 1) expr
        pure (.inl (n + 1, expr))
      | none => pure (.inr expr)) (0, first)) fun expr => expr.depth ≤ k + c := by
  refine grows_loop (fun x => x.1 ≤ c ∧ x.2.depth ≤ k + x.1) (fun x hx => ?_) ⟨Nat.zero_le c, hfirst⟩
  obtain ⟨n, expr⟩ := x
  obtain ⟨hn, hexpr⟩ := hx
  have hnext : Grows c (b + 1) (step expr) fun r => ∀ e ∈ r, e.depth ≤ k + n + 1 :=
    (hstep n (Nat.lt_succ_of_le hn) expr hexpr).mono (by omega) fun _ => id
  refine hnext.bind fun r hr => ?_
  cases r with
  | none => exact .pure (hexpr.trans (by omega))
  | some e =>
    have he : e.depth ≤ k + (n + 1) := hr e rfl
    refine .bind (Q := fun _ => n + 1 ≤ c) (fun p => .mark (fun hg => ?_) fun hg => mem_guard.mp hg) fun _ hle => .pure ⟨hle, he⟩
    have hle : n + 1 ≤ c := mem_guard.mp hg
    exact mem_allowed.mpr (show e.depth ≤ b + 1 by omega)

theorem grows_parseSuffixedExpr (hb : t + c + 3 ≤ b) :
    Grows c b (parseSuffixedExpr nest) fun expr => expr.depth ≤ t + 2 + c := by
  refine Grows.called (((grows_parsePrimaryExpr h (by omega : t + 1 ≤ b))).bind fun primary hprimary => ?_)
  have hloop := grows_deepen (c := c) (b := t + 2 + c) le_rfl (hprimary.trans (Nat.le_succ _))
    fun n _ expr hexpr => grows_parseSuffix h (Nat.le_add_right (t + 2) n) le_rfl hexpr
  exact hloop.mono (by omega) fun _ => id

theorem grows_parseSimpleExpr (hb : t + c + 3 ≤ b) :
    Grows c b (parseSimpleExpr nest) fun expr => expr.depth ≤ t + 2 + c := by
  refine Grows.called (.get fun p => ?_)
  have hliteral : ∀ expr : Expr, expr.depth ≤ 1 →
      Grows c b (advance >>= fun _ => build expr) fun expr => expr.depth ≤ t + 2 + c := fun expr he =>
    treeless_advance.then fun _ => .build (he.trans (by omega)) (he.trans (by omega))
  dsimp only
  split
  · exact hliteral _ le_rfl
  · exact hliteral _ le_rfl
  · exact hliteral _ le_rfl
  · exact hliteral _ le_rfl
  · exact hliteral _ le_rfl
  · exact hliteral _ le_rfl
  · refine treeless_advance.then fun _ => (grows_parseFuncBody h (by omega) _).bind fun body hbody => ?_
    have hdepth : (Expr.funcDef body p.span).depth ≤ t + 2 := Nat.succ_le_succ hbody
    exact .build (hdepth.trans (by omega)) (hdepth.trans (by omega))
  · refine .ite ?_ (grows_parseSuffixedExpr h hb)
    exact (grows_parseTableCtor h (by omega)).mono le_rfl fun e he => he.trans (by omega)

theorem grows_parseOperand (hb : t + c + 3 ≤ b) : Grows c b (parseOperand nest) fun expr => expr.depth ≤ t + 2 + c := by
  refine .get fun p => ?_
  split
  · refine treeless_advance.then fun _ => ((h.subExpr _).mono (by omega) fun _ => id).bind fun operand he => ?_
    have hdepth : ∀ op : UnOp, (Expr.unOp op operand p.span).depth ≤ t + 1 := fun _ => Nat.succ_le_succ he
    exact .build ((hdepth _).trans (by omega)) ((hdepth _).trans (by omega))
  · exact grows_parseSimpleExpr h hb

/-- A binary operator adds one to the depth. -/
theorem grows_parseBinary {k : ℕ} (hk : t ≤ k) (hb : k + 1 ≤ b) (limit : ℕ) (span : Span) {expr : Expr}
    (hexpr : expr.depth ≤ k) : Grows c b (parseBinary nest limit span expr) fun r => ∀ e ∈ r, e.depth ≤ k + 1 := by
  refine .get fun p => ?_
  split
  · rename_i op _
    refine .ite (.pure nofun) (treeless_advance.then fun _ => ?_)
    refine ((h.subExpr _).mono (by omega) fun _ => id).bind fun right hright => ?_
    have hdepth : (Expr.binOp op expr right span).depth ≤ k + 1 := Nat.succ_le_succ (max_le hexpr (hright.trans hk))
    exact .bind (Q := fun e => e.depth ≤ k + 1) (.build (hdepth.trans hb) hdepth) fun e he => .pure (by simpa using he)
  · exact .pure nofun

theorem grows_parseSubExpr (hb : t + 2 * c + 3 ≤ b) (limit : ℕ) :
    Grows c b (parseSubExpr nest limit) fun expr => expr.depth ≤ t + 2 + 2 * c := by
  refine Grows.called (.get fun p => (grows_parseOperand h (by omega)).bind fun first hfirst => ?_)
  have hloop := grows_deepen (c := c) (b := t + 2 + c + c) le_rfl hfirst
    fun n _ expr hexpr => grows_parseBinary h (by omega : t ≤ t + 2 + c + n) le_rfl limit p.span hexpr
  exact hloop.mono (by omega) fun e he => he.trans (by omega)

/-! ### Statements -/

theorem grows_parseIf (hb : t + 1 ≤ b) (span : Span) : Grows c b (parseIf nest span) fun stat => stat.depth ≤ t + 1 := by
  have hexpr := grows_parseExpr h (Nat.le_of_succ_le hb)
  have hblock := grows_block h (Nat.le_of_succ_le hb)
  refine Grows.called (treeless_advance.then fun _ => hexpr.bind fun condition hc => ?_)
  refine (treeless_expect _).then fun _ => hblock.bind fun body hbody => ?_
  refine .bind (Q := fun x => exprsDepth x.1 ≤ t ∧ blocksDepth x.2 ≤ t) ?_ fun x hx => ?_
  · refine grows_loop (fun x => exprsDepth x.1 ≤ t ∧ blocksDepth x.2 ≤ t) (fun x hx => ?_) ?_
    · obtain ⟨conditions, bodies⟩ := x
      refine (treeless_check _).then fun b => .ite ?_ (.pure hx)
      refine treeless_advance.then fun _ => hexpr.bind fun condition hc => (treeless_expect _).then fun _ => ?_
      refine hblock.bind fun body hbody => .pure ?_
      change exprsDepth (conditions ++ [condition]) ≤ t ∧ blocksDepth (bodies ++ [body]) ≤ t
      rw [exprsDepth_append, blocksDepth_append]
      exact ⟨max_le hx.1 hc, max_le hx.2 hbody⟩
    · simpa [exprsDepth, blocksDepth] using ⟨hc, hbody⟩
  · obtain ⟨conditions, bodies⟩ := x
    refine (treeless_testNext _).then fun hasElse => .bind (Q := fun r => elseDepth r ≤ t) ?_ fun elseBody helse => ?_
    · refine .ite (hblock.some.mono le_rfl fun r hr => ?_) (.pure (Nat.zero_le t))
      cases r with
      | none => exact Nat.zero_le t
      | some body => exact hr body rfl
    · refine .get fun p => (treeless_checkMatch _ _ _).then fun _ => ?_
      have hdepth : (Stat.if conditions bodies elseBody span p.span.line).depth ≤ t + 1 :=
        Nat.succ_le_succ (max_le hx.1 (max_le hx.2 helse))
      exact .build (hdepth.trans hb) hdepth

theorem grows_parseLoopBody (hb : t ≤ b) : Grows c b (parseLoopBody nest) fun stats => blockDepth stats ≤ t :=
  .modify ((grows_block h hb).bind fun _ hbody => .modify (.pure hbody))

theorem grows_parseWhile (hb : t + 1 ≤ b) (span : Span) :
    Grows c b (parseWhile nest span) fun stat => stat.depth ≤ t + 1 := by
  refine Grows.called (treeless_advance.then fun _ => (grows_parseExpr h (by omega)).bind fun condition hc => ?_)
  refine (treeless_expect _).then fun _ => (grows_parseLoopBody h (by omega)).bind fun body hbody => .get fun p => ?_
  have hdepth : (Stat.while condition body span p.span.line).depth ≤ t + 1 := Nat.succ_le_succ (max_le hc hbody)
  exact (treeless_checkMatch _ _ _).then fun _ => .build (hdepth.trans hb) hdepth

theorem grows_parseDo (hb : t + 1 ≤ b) (span : Span) : Grows c b (parseDo nest span) fun stat => stat.depth ≤ t + 1 := by
  refine Grows.called (treeless_advance.then fun _ => (grows_block h (by omega)).bind fun body hbody => ?_)
  refine .get fun p => ?_
  have hdepth : (Stat.do body span p.span.line).depth ≤ t + 1 := Nat.succ_le_succ hbody
  exact (treeless_checkMatch _ _ _).then fun _ => .build (hdepth.trans hb) hdepth

theorem grows_parseNumericFor (hb : t + 1 ≤ b) (name : String) (openLine : ℕ) (span : Span) :
    Grows c b (parseNumericFor nest name openLine span) fun stat => stat.depth ≤ t + 1 := by
  have hexpr := grows_parseExpr h (Nat.le_of_succ_le hb)
  refine Grows.called ((treeless_registerLocals _).then fun _ => (treeless_registerLocalsNamed _).then fun _ => ?_)
  refine (treeless_expectChar _).then fun _ => hexpr.bind fun start hstart => (treeless_expectChar _).then fun _ => ?_
  refine hexpr.bind fun stop hstop => (treeless_testNextChar _).then fun hasStep => ?_
  refine .bind (Q := fun r => stepDepth r ≤ t) ?_ fun step hstep => ?_
  · refine .ite (hexpr.some.mono le_rfl fun r hr => ?_) (.pure (Nat.zero_le t))
    cases r with
    | none => exact Nat.zero_le t
    | some e => exact hr e rfl
  · refine (treeless_expect _).then fun _ => (grows_parseLoopBody h (by omega)).bind fun body hbody => .get fun p => ?_
    have hdepth : (Stat.numericFor name start stop step body span p.span.line).depth ≤ t + 1 :=
      Nat.succ_le_succ (max_le hstart (max_le hstop (max_le hstep hbody)))
    exact (treeless_checkMatch _ _ _).then fun _ => .build (hdepth.trans hb) hdepth

theorem grows_parseGenericFor (hb : t + 1 ≤ b) (firstName : String) (openLine : ℕ) (span : Span) :
    Grows c b (parseGenericFor nest firstName openLine span) fun stat => stat.depth ≤ t + 1 := by
  refine Grows.called ((treeless_parseNames _ _).then fun names => (treeless_registerLocals _).then fun _ => ?_)
  refine (treeless_registerLocalsNamed _).then fun _ => (treeless_expect _).then fun _ => .get fun p => ?_
  refine (grows_parseExprList h (by omega)).bind fun iterators hit => (treeless_expect _).then fun _ => ?_
  refine (grows_parseLoopBody h (by omega)).bind fun body hbody => .get fun p' => ?_
  have hdepth : (Stat.genericFor names iterators body p.span.line span p'.span.line).depth ≤ t + 1 :=
    Nat.succ_le_succ (max_le hit hbody)
  exact (treeless_checkMatch _ _ _).then fun _ => .build (hdepth.trans hb) hdepth

theorem grows_parseFor (hb : t + 1 ≤ b) (span : Span) : Grows c b (parseFor nest span) fun stat => stat.depth ≤ t + 1 := by
  refine Grows.called (treeless_advance.then fun _ => treeless_expectName.then fun name => .get fun p => ?_)
  exact .ite (grows_parseNumericFor h hb _ _ _) (.ite (grows_parseGenericFor h hb _ _ _) (grows_syntaxErrorNear _))

theorem grows_parseRepeat (hb : t + 1 ≤ b) (span : Span) :
    Grows c b (parseRepeat nest span) fun stat => stat.depth ≤ t + 1 := by
  refine Grows.called (treeless_advance.then fun _ => .modify ((grows_block h (by omega)).bind fun body hbody => ?_))
  refine (treeless_checkMatch _ _ _).then fun _ => (grows_parseExpr h (by omega)).bind fun condition hc => .modify ?_
  have hdepth : (Stat.repeat body condition span).depth ≤ t + 1 := Nat.succ_le_succ (max_le hbody hc)
  exact .build (hdepth.trans hb) hdepth

theorem grows_parseFuncDecl (hb : t + 2 ≤ b) (span : Span) :
    Grows c b (parseFuncDecl nest span) fun stat => stat.depth ≤ t + 2 := by
  refine Grows.called (treeless_advance.then fun _ => treeless_parseFuncName.then fun name => ?_)
  refine (grows_parseFuncBody h (by omega) span).bind fun body hbody => ?_
  have hdepth : (Stat.funcDecl name body span).depth ≤ t + 2 := Nat.succ_le_succ hbody
  exact .build (hdepth.trans hb) hdepth

theorem grows_parseLocal (hb : t + 2 ≤ b) (span : Span) :
    Grows c b (parseLocal nest span) fun stat => stat.depth ≤ t + 2 := by
  refine Grows.called (treeless_advance.then fun _ => (treeless_testNext _).then fun function => .ite ?_ ?_)
  · refine treeless_expectName.then fun name => (treeless_registerLocalsNamed _).then fun _ => ?_
    refine (grows_parseFuncBody h (by omega) span).bind fun body hbody => ?_
    have hdepth : (Stat.localFunc name body span).depth ≤ t + 2 := Nat.succ_le_succ hbody
    exact .build (hdepth.trans hb) hdepth
  · refine treeless_expectName.then fun first => (treeless_parseNames _ _).then fun names => ?_
    refine (treeless_registerLocalsNamed _).then fun _ => (treeless_testNextChar _).then fun hasValues => ?_
    refine .bind (Q := fun values => exprsDepth values ≤ t) ?_ fun values hv => ?_
    · exact .ite (grows_parseExprList h (by omega)) (.pure (Nat.zero_le t))
    · have hdepth : (Stat.localDecl names values span).depth ≤ t + 1 := Nat.succ_le_succ hv
      exact .build (hdepth.trans (by omega)) (hdepth.trans (Nat.le_succ _))

theorem grows_parseReturn (hb : t + 1 ≤ b) (span : Span) :
    Grows c b (parseReturn nest span) fun stat => stat.depth ≤ t + 1 := by
  refine Grows.called (treeless_advance.then fun _ => treeless_isBlockFollow.then fun follow => ?_)
  refine (treeless_checkChar _).then fun semicolon => .bind (Q := fun values => exprsDepth values ≤ t) ?_ fun values hv => ?_
  · exact .ite (.pure (Nat.zero_le t)) (grows_parseExprList h (by omega))
  · have hdepth : (Stat.return values span).depth ≤ t + 1 := Nat.succ_le_succ hv
    exact .build (hdepth.trans hb) hdepth

omit h in
theorem grows_parseBreak (hb : 1 ≤ b) (span : Span) : Grows c b (parseBreak span) fun stat => stat.depth ≤ 1 :=
  Grows.called (treeless_advance.then fun _ => .get fun _ => .ite (grows_syntaxErrorNear _) (.build hb le_rfl))

theorem grows_parseExprStat (hb : t + c + 3 ≤ b) (span : Span) :
    Grows c b (parseExprStat nest span) fun stat => stat.depth ≤ t + c + 3 := by
  have hsuffixed := grows_parseSuffixedExpr h hb
  refine Grows.called (hsuffixed.bind fun expr he => .get fun p => .ite ?_ (.ite ?_ (grows_errorExpected _)))
  · refine .bind (Q := fun targets => exprsDepth targets ≤ t + 2 + c) ?_ fun targets ht => ?_
    · have hone : ∀ e : Expr, exprsDepth [e] ≤ t + 2 + c ↔ e.depth ≤ t + 2 + c := fun e => by simp [exprsDepth]
      refine grows_sep (k := t + 2 + c) (hsuffixed.mono le_rfl fun e => (hone e).mpr) (fun es e hes he => ?_) [expr]
        ((hone expr).mpr he)
      rw [exprsDepth_append]
      exact max_le hes ((hone e).mp he)
    · refine (treeless_expectChar _).then fun _ => (grows_parseExprList h (by omega)).bind fun values hv => ?_
      have hdepth : (Stat.assign targets values span).depth ≤ t + 2 + c + 1 :=
        Nat.succ_le_succ (max_le ht (hv.trans (by omega)))
      exact .build (hdepth.trans (by omega)) (hdepth.trans (by omega))
  · have hdepth : (Stat.exprStat expr span).depth ≤ t + 2 + c + 1 := Nat.succ_le_succ he
    exact .build (hdepth.trans (by omega)) (hdepth.trans (by omega))

theorem grows_parseStat (hb : t + c + 3 ≤ b) : Grows c b (parseStat nest) fun stat => stat.depth ≤ t + c + 3 := by
  have hmono : ∀ {k : ℕ} {x : ParserM Stat}, k ≤ t + c + 3 → (Grows c b x fun stat => stat.depth ≤ k) →
      Grows c b x fun stat => stat.depth ≤ t + c + 3 := fun hk hx => hx.mono le_rfl fun _ hs => hs.trans hk
  refine Grows.called (.get fun p => ?_)
  split
  · exact hmono (by omega) (grows_parseIf h (by omega) _)
  · exact hmono (by omega) (grows_parseWhile h (by omega) _)
  · exact hmono (by omega) (grows_parseDo h (by omega) _)
  · exact hmono (by omega) (grows_parseFor h (by omega) _)
  · exact hmono (by omega) (grows_parseRepeat h (by omega) _)
  · exact hmono (by omega) (grows_parseFuncDecl h (by omega) _)
  · exact hmono (by omega) (grows_parseLocal h (by omega) _)
  · exact hmono (by omega) (grows_parseReturn h (by omega) _)
  · exact hmono (k := 1) (by omega) (grows_parseBreak (by omega) _)
  · exact grows_parseExprStat h hb _

theorem grows_parseBlock (hb : t + c + 3 ≤ b) :
    Grows c b (parseBlock nest) fun stats => blockDepth stats ≤ t + c + 3 := by
  refine Grows.called (.get fun p => .bind (Q := fun stats => blockDepth stats ≤ t + c + 3) ?_ fun stats hs => ?_)
  · refine grows_loop (fun stats => blockDepth stats ≤ t + c + 3) (fun stats hs => ?_) (Nat.zero_le _)
    refine treeless_isBlockFollow.then fun b => .ite (.pure hs) ((grows_parseStat h hb).bind fun stat hstat => ?_)
    have hmore : blockDepth (stats ++ [stat]) ≤ t + c + 3 := by
      rw [blockDepth_append]
      exact max_le hs hstat
    refine (treeless_testNextChar _).then fun _ => .pure ?_
    split_ifs
    · exact hmore
    · exact hmore
  · exact .modify (.pure hs)

end Parse

/-- Each syntax level adds two loops to the depth. -/
theorem shallow_nested (c levels : ℕ) : (nested levels).Shallow c (levels * (2 * c + 3)) := by
  induction levels with
  | zero =>
    constructor
    · exact Grows.called (grows_syntaxError _)
    · exact fun limit => Grows.called (grows_syntaxError _)
  | succ levels ih =>
    have hsucc : (levels + 1) * (2 * c + 3) = levels * (2 * c + 3) + 2 * c + 3 := by
      rw [Nat.add_mul, Nat.one_mul, Nat.add_assoc]
    rw [hsucc]
    constructor
    · exact (grows_parseBlock ih (by omega)).mono le_rfl fun stats hs => hs.trans (by omega)
    · exact fun limit => (grows_parseSubExpr ih le_rfl limit).mono le_rfl fun e he => he.trans (by omega)

theorem grows_parseChunk (c : ℕ) :
    Grows c (maxSyntaxLevels * (2 * c + 3)) parseChunk fun stats => blockDepth stats ≤ maxSyntaxLevels * (2 * c + 3) := by
  refine Grows.called ((shallow_nested c maxSyntaxLevels).block.bind fun block hblock => ?_)
  exact (treeless_check _).then fun _ => .ite (.pure hblock) (grows_errorExpected _)

end Rilua.Compiler
