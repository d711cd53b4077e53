import Rilua.Compiler.ParserTrees

/-! How deep compilation recurses: in the parser, in the code generator (`compiler/codegen.rs`) over the tree, and
    when the tree is dropped. The parser counts syntax levels, but its loops build trees that lean to the left,
    as deep as the loop is long. So the depth is bounded just where the chains of operators and suffixes are. -/

namespace Rilua.Compiler

open Lib

/-- How deep the calls of `resolve_var` nest, with `fs` functions around. -/
def resolveVar (fs : ℕ) : ℕ := fs + 1

mutual

/-- How deep the calls of `compile_expr` nest, with `fs` functions around. -/
def compileExpr (fs : ℕ) : Expr → ℕ
  | .nil _ | .true _ | .false _ | .number _ _ | .str _ _ | .varArg _ => 1
  | .name _ _ => resolveVar fs + 1
  | .binOp _ left right _ => max (compileExpr fs left) (compileExpr fs right) + 1
  | .unOp _ operand _ => compileExpr fs operand + 1
  | .index table key _ => max (compileExpr fs table) (compileExpr fs key) + 1
  | .field table _ _ => compileExpr fs table + 1
  -- the arguments are compiled by `compile_funcargs`
  | .methodCall table _ args _ => max (compileExpr fs table) (compileExprs fs args + 1) + 1
  | .call func args _ => max (compileExpr fs func) (compileExprs fs args + 1) + 1
  | .funcDef body _ => compileFuncbody fs body + 1
  -- the fields are compiled by `compile_table_ctor`
  | .tableCtor fields _ => compileFields fs fields + 2
  | .paren inner _ => compileExpr fs inner + 1

def compileExprs (fs : ℕ) : List Expr → ℕ
  | [] => 0
  | e :: es => max (compileExpr fs e) (compileExprs fs es)

def compileStep (fs : ℕ) : Option Expr → ℕ
  | none => 0
  | some e => compileExpr fs e

def compileField (fs : ℕ) : TableField → ℕ
  | .indexField key value _ => max (compileExpr fs key) (compileExpr fs value)
  | .nameField _ value _ => compileExpr fs value
  | .valueField value _ => compileExpr fs value

def compileFields (fs : ℕ) : List TableField → ℕ
  | [] => 0
  | f :: fields => max (compileField fs f) (compileFields fs fields)

/-- A function body is compiled with one more function around. -/
def compileFuncbody (fs : ℕ) : FuncBody → ℕ
  | ⟨_, _, body, _, _⟩ => compileStats (fs + 1) body + 2

/-- Each kind of statement has a function of its own. Lists of values are compiled by `compile_exprlist`, and blocks by
    `compile_block`, also by `compile_block_scoped`. -/
def compileStat (fs : ℕ) : Stat → ℕ
  | .assign targets values _ => max (compileExprs fs targets) (compileExprs fs values + 1) + 2
  | .localDecl _ values _ => compileExprs fs values + 3
  | .do body _ _ => compileStats fs body + 3
  | .while condition body _ _ => max (compileExpr fs condition) (compileStats fs body + 1) + 2
  | .repeat body condition _ => max (compileStats fs body + 1) (compileExpr fs condition) + 2
  | .if conditions bodies elseBody _ _ =>
    max (compileExprs fs conditions) (max (compileBodies fs bodies + 2) (compileElse fs elseBody + 2)) + 2
  | .numericFor _ start stop step body _ _ =>
    max (compileExpr fs start)
      (max (compileExpr fs stop) (max (compileStep fs step) (compileStats fs body + 1))) + 2
  | .genericFor _ iterators body _ _ _ => max (compileExprs fs iterators + 1) (compileStats fs body + 1) + 2
  | .funcDecl _ body _ => max (resolveVar fs) (compileFuncbody fs body) + 2
  | .localFunc _ body _ => compileFuncbody fs body + 2
  | .return values _ => compileExprs fs values + 2
  | .break _ => 1
  | .exprStat expr _ => compileExpr fs expr + 2

def compileStats (fs : ℕ) : List Stat → ℕ
  | [] => 0
  | stat :: stats => max (compileStat fs stat) (compileStats fs stats)

def compileBodies (fs : ℕ) : List (List Stat) → ℕ
  | [] => 0
  | body :: bodies => max (compileStats fs body) (compileBodies fs bodies)

def compileElse (fs : ℕ) : Option (List Stat) → ℕ
  | none => 0
  | some body => compileStats fs body

end

/-! ### The code generator recurses over the tree -/

mutual

theorem compileExpr_le (fs : ℕ) : ∀ e : Expr, compileExpr fs e ≤ 4 * e.depth + fs
  | .nil _ | .true _ | .false _ | .number _ _ | .str _ _ | .varArg _ => by
    simp only [compileExpr, Expr.depth]
    omega
  | .name _ _ => by
    simp only [compileExpr, resolveVar, Expr.depth]
    omega
  | .binOp _ left right _ => by
    have hleft := compileExpr_le fs left
    have hright := compileExpr_le fs right
    simp only [compileExpr, Expr.depth]
    omega
  | .unOp _ operand _ => by
    have hoperand := compileExpr_le fs operand
    simp only [compileExpr, Expr.depth]
    omega
  | .index table key _ => by
    have htable := compileExpr_le fs table
    have hkey := compileExpr_le fs key
    simp only [compileExpr, Expr.depth]
    omega
  | .field table _ _ => by
    have htable := compileExpr_le fs table
    simp only [compileExpr, Expr.depth]
    omega
  | .methodCall table _ args _ => by
    have htable := compileExpr_le fs table
    have hargs := compileExprs_le fs args
    simp only [compileExpr, Expr.depth]
    omega
  | .call func args _ => by
    have hfunc := compileExpr_le fs func
    have hargs := compileExprs_le fs args
    simp only [compileExpr, Expr.depth]
    omega
  | .funcDef body _ => by
    have hbody := compileFuncbody_le fs body
    simp only [compileExpr, Expr.depth]
    omega
  | .tableCtor fields _ => by
    have hfields := compileFields_le fs fields
    simp only [compileExpr, Expr.depth]
    omega
  | .paren inner _ => by
    have hinner := compileExpr_le fs inner
    simp only [compileExpr, Expr.depth]
    omega

theorem compileExprs_le (fs : ℕ) : ∀ es : List Expr, compileExprs fs es ≤ 4 * exprsDepth es + fs
  | [] => by simp [compileExprs]
  | e :: es => by
    have he := compileExpr_le fs e
    have hes := compileExprs_le fs es
    simp only [compileExprs, exprsDepth]
    omega

theorem compileStep_le (fs : ℕ) : ∀ r : Option Expr, compileStep fs r ≤ 4 * stepDepth r + fs
  | none => by simp [compileStep]
  | some e => by
    have he := compileExpr_le fs e
    simp only [compileStep, stepDepth]
    omega

theorem compileField_le (fs : ℕ) : ∀ f : TableField, compileField fs f ≤ 4 * f.depth + fs
  | .indexField key value _ => by
    have hkey := compileExpr_le fs key
    have hvalue := compileExpr_le fs value
    simp only [compileField, TableField.depth]
    omega
  | .nameField _ value _ => by
    have hvalue := compileExpr_le fs value
    simp only [compileField, TableField.depth]
    omega
  | .valueField value _ => by
    have hvalue := compileExpr_le fs value
    simp only [compileField, TableField.depth]
    omega

theorem compileFields_le (fs : ℕ) : ∀ fields : List TableField, compileFields fs fields ≤ 4 * fieldsDepth fields + fs
  | [] => by simp [compileFields]
  | f :: fields => by
    have hf := compileField_le fs f
    have hfields := compileFields_le fs fields
    simp only [compileFields, fieldsDepth]
    omega

theorem compileFuncbody_le (fs : ℕ) : ∀ body : FuncBody, compileFuncbody fs body ≤ 4 * body.depth + fs
  | ⟨_, _, body, _, _⟩ => by
    have hbody := compileStats_le (fs + 1) body
    simp only [compileFuncbody, FuncBody.depth]
    omega

theorem compileStat_le (fs : ℕ) : ∀ stat : Stat, compileStat fs stat ≤ 4 * stat.depth + fs
  | .assign targets values _ => by
    have htargets := compileExprs_le fs targets
    have hvalues := compileExprs_le fs values
    simp only [compileStat, Stat.depth]
    omega
  | .localDecl _ values _ => by
    have hvalues := compileExprs_le fs values
    simp only [compileStat, Stat.depth]
    omega
  | .do body _ _ => by
    have hbody := compileStats_le fs body
    simp only [compileStat, Stat.depth]
    omega
  | .while condition body _ _ => by
    have hcondition := compileExpr_le fs condition
    have hbody := compileStats_le fs body
    simp only [compileStat, Stat.depth]
    omega
  | .repeat body condition _ => by
    have hbody := compileStats_le fs body
    have hcondition := compileExpr_le fs condition
    simp only [compileStat, Stat.depth]
    omega
  | .if conditions bodies elseBody _ _ => by
    have hconditions := compileExprs_le fs conditions
    have hbodies := compileBodies_le fs bodies
    have helse := compileElse_le fs elseBody
    simp only [compileStat, Stat.depth]
    omega
  | .numericFor _ start stop step body _ _ => by
    have hstart := compileExpr_le fs start
    have hstop := compileExpr_le fs stop
    have hstep := compileStep_le fs step
    have hbody := compileStats_le fs body
    simp only [compileStat, Stat.depth]
    omega
  | .genericFor _ iterators body _ _ _ => by
    have hiterators := compileExprs_le fs iterators
    have hbody := compileStats_le fs body
    simp only [compileStat, Stat.depth]
    omega
  | .funcDecl _ body _ => by
    have hbody := compileFuncbody_le fs body
    simp only [compileStat, resolveVar, Stat.depth]
    omega
  | .localFunc _ body _ => by
    have hbody := compileFuncbody_le fs body
    simp only [compileStat, Stat.depth]
    omega
  | .return values _ => by
    have hvalues := compileExprs_le fs values
    simp only [compileStat, Stat.depth]
    omega
  | .break _ => by
    simp only [compileStat, Stat.depth]
    omega
  | .exprStat expr _ => by
    have hexpr := compileExpr_le fs expr
    simp only [compileStat, Stat.depth]
    omega

theorem compileStats_le (fs : ℕ) : ∀ stats : List Stat, compileStats fs stats ≤ 4 * blockDepth stats + fs
  | [] => by simp [compileStats]
  | stat :: stats => by
    have hstat := compileStat_le fs stat
    have hstats := compileStats_le fs stats
    simp only [compileStats, blockDepth]
    omega

theorem compileBodies_le (fs : ℕ) : ∀ bodies : List (List Stat), compileBodies fs bodies ≤ 4 * blocksDepth bodies + fs
  | [] => by simp [compileBodies]
  | body :: bodies => by
    have hbody := compileStats_le fs body
    have hbodies := compileBodies_le fs bodies
    simp only [compileBodies, blocksDepth]
    omega

theorem compileElse_le (fs : ℕ) : ∀ r : Option (List Stat), compileElse fs r ≤ 4 * elseDepth r + fs
  | none => by simp [compileElse]
  | some body => by
    have hbody := compileStats_le fs body
    simp only [compileElse, elseDepth]
    omega

end

/-! ### The depth of compilation -/

/-- How deep the calls of the parser nest. -/
def parseDepth (source : Lexer) : ℕ := (parse source).1 .call

/-- How deep the calls of the code generator nest: `compile_block` within the function state of the main chunk. -/
def compileDepth (source : Lexer) : ℕ :=
  match (parse source).2 with
  | .ok block => compileStats 1 block + 1
  | .error _ => 0

/-- How deep the recursion is when the trees are dropped that were built. -/
def dropDepth (source : Lexer) : ℕ := (parse source).1 .tree

/-- The length of the longest chain: of the binary operators, or of the suffixes, that one loop has read. -/
def chainLength (source : Lexer) : ℕ := (parse source).1 .loop

theorem parse_calls (source : Lexer) :
    parseDepth source ≤ 8 * maxSyntaxLevels + 2 ∧ chainLength source ≤ dropDepth source := by
  rw [parseDepth, chainLength, dropDepth, parse]
  split
  · exact ⟨Nat.zero_le _, le_rfl⟩
  · rename_i current span lexer _
    exact (reads_parseChunk { lexer, current, span }).marks trivial

/-- Parsing always ends. -/
theorem parse_ne_fuel (source : Lexer) : (parse source).2 ≠ .error .fuel := by
  rw [parse]
  split
  · rintro ⟨⟩
  · rename_i current span lexer _
    intro he
    cases hresult : (parseChunk { lexer, current, span }).2 with
    | ok x => simp [hresult, Except.map] at he
    | error e =>
      have hfuel : e = .fuel := by simpa [hresult, Except.map] using he
      exact (reads_parseChunk { lexer, current, span }).error trivial e hresult hfuel

theorem parse_trees (source : Lexer) :
    dropDepth source ≤ maxSyntaxLevels * (2 * chainLength source + 3) ∧
      ∀ block, (parse source).2 = .ok block → blockDepth block ≤ maxSyntaxLevels * (2 * chainLength source + 3) := by
  rw [dropDepth, chainLength, parse]
  split
  · exact ⟨Nat.zero_le _, nofun⟩
  · rename_i current span lexer _
    have hgrows := grows_parseChunk ((parseChunk { lexer, current, span }).1 .loop) { lexer, current, span }
    have hguard : ∀ b, (parseChunk { lexer, current, span }).1 ∈
        (treePolicy ((parseChunk { lexer, current, span }).1 .loop) b).guard := fun _ => mem_guard.mpr le_rfl
    refine ⟨hgrows.marks (hguard _), fun block hblock => ?_⟩
    cases hresult : (parseChunk { lexer, current, span }).2 with
    | error e => simp [hresult, Except.map] at hblock
    | ok x =>
      obtain rfl : x.1 = block := by simpa [hresult, Except.map] using hblock
      exact hgrows.ok (hguard _) x.1 x.2 hresult

theorem compileDepth_le (source : Lexer) :
    compileDepth source ≤ 4 * (maxSyntaxLevels * (2 * chainLength source + 3)) + 2 := by
  rw [compileDepth]
  split
  · rename_i block hblock
    have hdepth := (parse_trees source).2 block hblock
    have hcompile := compileStats_le 1 block
    omega
  · exact Nat.zero_le _

/-- The depth of compilation is bounded on a set of sources if and only if their chains are. -/
theorem depth_bounded_iff (sources : Set Lexer) :
    (∃ K, ∀ source ∈ sources, parseDepth source ≤ K * maxSyntaxLevels ∧ compileDepth source ≤ K * maxSyntaxLevels ∧
      dropDepth source ≤ K * maxSyntaxLevels) ↔ ∃ n, ∀ source ∈ sources, chainLength source ≤ n := by
  constructor
  · rintro ⟨K, hK⟩
    exact ⟨K * maxSyntaxLevels, fun source hs => (parse_calls source).2.trans (hK source hs).2.2⟩
  · rintro ⟨n, hn⟩
    refine ⟨4 * (2 * n + 3) + 9, fun source hs => ?_⟩
    have hcalls := (parse_calls source).1
    have htrees := (parse_trees source).1
    have hcompile := compileDepth_le source
    have hchain := hn source hs
    have hmono : maxSyntaxLevels * (2 * chainLength source + 3) ≤ maxSyntaxLevels * (2 * n + 3) :=
      Nat.mul_le_mul_left _ (by omega)
    simp only [maxSyntaxLevels] at hcalls htrees hcompile hmono ⊢
    omega

/-! ### A long chain

Nothing bounds the chains: in `x.y.y.….y()` one loop reads all the suffixes. -/

/-- A token as it was written, but for literals. -/
def Token.text : Token → String
  | name x => x
  | t => t.token2str

/-- A token as it is scanned from the first line. -/
def scanned (t : Token) : Except SourceError Scanned := .ok { token := t, span := ⟨1⟩, line := 1, text := t.text }

/-- `.y.y.….y()`, with so many fields. -/
def fieldTokens : ℕ → List Token
  | 0 => [charToken '(', charToken ')']
  | m + 1 => charToken '.' :: .name "y" :: fieldTokens m

/-- `x.y.y.….y()`, with so many fields. -/
def fieldChain (m : ℕ) : Lexer where
  rest := (.name "x" :: fieldTokens m).map scanned
  sourceName := "chain"

/-- The parser has come to these tokens. -/
def Ahead (p : Parser) : List Token → Prop
  | [] => False
  | t :: ts => p.current = t ∧ p.lexer.lookahead = none ∧ p.lexer.rest = ts.map scanned

/-- A computation that succeeds. -/
def Yields (x : ParserM α) (p : Parser) (a : α) (p' : Parser) : Prop := ∃ m, x p = (m, .ok (a, p'))

section

variable {x : ParserM α} {f : α → ParserM β} {p p' : Parser} {a : α}

theorem Yields.bind {b : β} {p'' : Parser} (h : Yields x p a p') (hf : Yields (f a) p' b p'') :
    Yields (x >>= f) p b p'' := by
  obtain ⟨m, hx⟩ := h
  obtain ⟨m', hb⟩ := hf
  exact ⟨m ⊔ m', by rw [Metered.bind_of_ok f hx, hb]⟩

/-- The marks of the first step are among those of both. -/
theorem marks_first (k : Mark) : (x p).1 k ≤ ((x >>= f) p).1 k := by
  rcases hx : x p with ⟨m, e | ⟨a, p'⟩⟩
  · rw [Metered.bind_of_error f hx]
  · rw [Metered.bind_of_ok f hx]
    exact le_sup_left (a := m k)

/-- The marks of the second step are among those of both. -/
theorem Yields.marks_second (h : Yields x p a p') (k : Mark) : (f a p').1 k ≤ ((x >>= f) p).1 k := by
  obtain ⟨m, hx⟩ := h
  rw [Metered.bind_of_ok f hx]
  exact le_sup_right (a := m k)

theorem Yields.called (h : Yields x p a p') : Yields (called x) p a p' := by
  obtain ⟨m, hx⟩ := h
  exact ⟨_, congrArg (fun r => (_, r.2)) hx⟩

theorem yields_get : Yields Metered.get p p p := ⟨⊥, rfl⟩

theorem yields_pure : Yields (pure a) p a p := ⟨⊥, rfl⟩

theorem yields_build [Tree α] : Yields (build a) p a p := ⟨_, rfl⟩

theorem called_loop : (called x p).1 .loop = (x p).1 .loop := rfl

theorem Ahead.advance {t t' : Token} {ts : List Token} (h : Ahead p (t :: t' :: ts)) :
    ∃ p', Yields advance p (t, p.span) p' ∧ Ahead p' (t' :: ts) ∧ p'.funcScopes = p.funcScopes := by
  obtain ⟨rfl, hlookahead, hrest⟩ := h
  let lexer := { p.lexer with rest := ts.map scanned, line := 1, lastTokenText := t'.text }
  refine ⟨{ p with lexer, current := t', span := ⟨1⟩, lastline := p.span.line }, ⟨⊥, ?_⟩, ⟨rfl, hlookahead, rfl⟩, rfl⟩
  simp only [lexer, Compiler.advance, Metered.attempt, Lexer.next, Lexer.scan, hlookahead, hrest, scanned, List.map_cons]

theorem Ahead.expectName {name : String} {t : Token} {ts : List Token} (h : Ahead p (.name name :: t :: ts)) :
    ∃ p', Yields expectName p name p' ∧ Ahead p' (t :: ts) := by
  obtain ⟨p', hadvance, hp', -⟩ := h.advance
  refine ⟨p', .bind yields_get ?_, hp'⟩
  rw [h.1]
  exact .bind hadvance yields_pure

/-- One field is read. -/
theorem Ahead.parseSuffix {t : Token} {ts : List Token} (h : Ahead p (charToken '.' :: .name "y" :: t :: ts))
    (nest : Nested) (expr : Expr) :
    ∃ expr' p', Yields (parseSuffix nest expr) p (some expr') p' ∧ Ahead p' (t :: ts) := by
  obtain ⟨p₁, hadvance, hp₁, -⟩ := h.advance
  obtain ⟨p₂, hname, hp₂⟩ := hp₁.expectName
  refine ⟨.field expr "y" expr.span, p₂, .bind yields_get ?_, hp₂⟩
  rw [h.1]
  exact .bind hadvance (.bind hname (.bind yields_build yields_pure))

theorem length_fieldTokens (m : ℕ) : (fieldTokens m).length = 2 * m + 2 := by
  induction m with
  | zero => rfl
  | succ m ih => rw [fieldTokens, List.length_cons, List.length_cons, ih]; omega

theorem fieldTokens_eq (m : ℕ) : ∃ t ts, fieldTokens m = t :: ts := by
  cases m with
  | zero => exact ⟨_, _, rfl⟩
  | succ m => exact ⟨_, _, rfl⟩

/-- A turn of the loop of suffixes. -/
def suffixStep (nest : Nested) (x : ℕ × Expr) : ParserM ((ℕ × Expr) ⊕ Expr) := do
  match ← parseSuffix nest x.2 with
  | some expr =>
    looped (x.1 + 1) expr
    pure (.inl (x.1 + 1, expr))
  | none => pure (.inr x.2)

theorem Ahead.suffixStep {t : Token} {ts : List Token} (h : Ahead p (charToken '.' :: .name "y" :: t :: ts))
    (nest : Nested) (n : ℕ) (expr : Expr) :
    ∃ expr' p', Yields (suffixStep nest (n, expr)) p (.inl (n + 1, expr')) p' ∧ Ahead p' (t :: ts) ∧
      n + 1 ≤ (suffixStep nest (n, expr) p).1 .loop := by
  obtain ⟨expr', p', hsuffix, hp'⟩ := h.parseSuffix nest expr
  have hlooped : Yields (looped (n + 1) expr') p' () p' := ⟨_, rfl⟩
  refine ⟨expr', p', hsuffix.bind (hlooped.bind yields_pure), hp', ?_⟩
  refine le_trans ?_ (hsuffix.marks_second .loop)
  calc n + 1 = (looped (n + 1) expr' p').1 .loop := rfl
    _ ≤ _ := marks_first .loop

/-- The loop marks each of the fields. -/
theorem fields_le {nest : Nested} (m n fuel : ℕ) (expr : Expr) (hfuel : m < fuel) (h : Ahead p (fieldTokens (m + 1))) :
    n + m + 1 ≤ (Metered.repeatFor .fuel (suffixStep nest) fuel (n, expr) p).1 .loop := by
  induction m generalizing n fuel expr p with
  | zero =>
    obtain ⟨fuel, rfl⟩ : ∃ k, fuel = k + 1 := ⟨fuel - 1, by omega⟩
    obtain ⟨expr', p', -, -, hmark⟩ := h.suffixStep nest n expr
    rw [Metered.repeatFor]
    exact hmark.trans (marks_first .loop)
  | succ m ih =>
    obtain ⟨fuel, rfl⟩ : ∃ k, fuel = k + 1 := ⟨fuel - 1, by omega⟩
    obtain ⟨expr', p', hstep, hp', -⟩ := h.suffixStep nest n expr
    have hrest : n + 1 + m + 1 ≤ (Metered.repeatFor .fuel (Compiler.suffixStep nest) fuel (n + 1, expr') p').1 .loop :=
      ih (n + 1) fuel expr' (by omega) hp'
    rw [Metered.repeatFor]
    refine le_trans ?_ (hstep.marks_second .loop)
    exact (le_of_eq (by omega)).trans hrest

/-- The chain is read by one loop. -/
theorem parseSuffixedExpr_le {nest : Nested} {m : ℕ} (h : Ahead p (.name "x" :: fieldTokens (m + 1)))
    (hscopes : p.funcScopes = [{ lineDefined := 0 }]) : m + 1 ≤ (parseSuffixedExpr nest p).1 .loop := by
  obtain ⟨p', hadvance, hp', hscopes'⟩ := h.advance
  have hcheck : Yields (checkNameUpvalue "x") p' () p' := by
    refine .bind yields_get ?_
    rw [hscopes', hscopes]
    exact yields_pure
  have hprimary : Yields (parsePrimaryExpr nest) p (.name "x" p.span) p' := by
    refine .called (.bind yields_get ?_)
    rw [h.1]
    exact .bind hadvance (.bind hcheck yields_build)
  have hsize : m < p'.size + 1 := by
    have hlength : p'.lexer.rest.length = 2 * m + 3 := by
      rw [hp'.2.2, List.length_map, List.length_cons, length_fieldTokens]
    simp only [Parser.size, Lexer.size, hlength]
    omega
  refine le_trans ?_ (hprimary.marks_second .loop)
  have hfields : m + 1 ≤ (Metered.repeatFor .fuel (suffixStep nest) (p'.size + 1) (0, .name "x" p.span) p').1 .loop := by
    simpa using fields_le m 0 (p'.size + 1) (.name "x" p.span) hsize hp'
  exact hfields

theorem fieldChain_le (m : ℕ) : m + 1 ≤ chainLength (fieldChain (m + 1)) := by
  let p : Parser := {
    lexer := { rest := (fieldTokens (m + 1)).map scanned, lastTokenText := "x", sourceName := "chain" }
    current := .name "x"
    span := ⟨1⟩ }
  have hchain : m + 1 ≤ (parseSuffixedExpr (nested (maxSyntaxLevels - 1)) p).1 .loop := 
    parseSuffixedExpr_le ⟨rfl, rfl, rfl⟩ rfl
  have hfollow : Yields isBlockFollow p false p := .bind yields_get yields_pure
  calc m + 1 ≤ (parseSuffixedExpr (nested (maxSyntaxLevels - 1)) p).1 .loop := hchain
    _ ≤ (parseExprStat (nested (maxSyntaxLevels - 1)) p.span p).1 .loop := marks_first .loop
    _ ≤ (parseStat (nested (maxSyntaxLevels - 1)) p).1 .loop := by
      rw [parseStat, called_loop]
      refine le_trans ?_ (yields_get.marks_second .loop)
      exact le_rfl
    _ ≤ (parseBlock (nested (maxSyntaxLevels - 1)) p).1 .loop := by
      rw [parseBlock, called_loop]
      refine le_trans ?_ (yields_get.marks_second .loop)
      refine le_trans ?_ (marks_first .loop)
      rw [loop, Metered.repeatFor]
      refine le_trans ?_ (marks_first .loop)
      refine le_trans ?_ (hfollow.marks_second .loop)
      exact marks_first .loop
    _ ≤ (parseChunk p).1 .loop := marks_first .loop

end

/-- No bound holds for all sources. -/
theorem not_depth_bounded : ¬ ∃ K, ∀ source : Lexer, parseDepth source ≤ K * maxSyntaxLevels ∧
    compileDepth source ≤ K * maxSyntaxLevels ∧ dropDepth source ≤ K * maxSyntaxLevels := by
  rintro ⟨K, hK⟩
  have hdrop : dropDepth (fieldChain (K * maxSyntaxLevels + 1)) ≤ K * maxSyntaxLevels := (hK _).2.2
  have hchain : K * maxSyntaxLevels + 1 ≤ chainLength (fieldChain (K * maxSyntaxLevels + 1)) := fieldChain_le _
  have hle := (parse_calls (fieldChain (K * maxSyntaxLevels + 1))).2
  omega

end Rilua.Compiler
