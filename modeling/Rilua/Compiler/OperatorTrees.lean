import Rilua.Compiler.Parser

/-! How expressions of operators are grouped. A tree is written with parentheses only where the precedence table
    asks for them, and the parser (`compiler/parser.rs`) is run on what was written. Each call for an operand
    takes a syntax level, so a tree that nests too deep is refused. -/

namespace Rilua.Compiler

open Lib

/-! ### Trees of operators -/

/-- An operand without parts. -/
inductive Atom where
  | nil | true | false | varArg
  | number (n : F64)
  | str (s : List UInt8)
  | name (name : String)

/-- An expression of operators and atoms. -/
inductive OpTree where
  | atom (a : Atom)
  | unOp (op : UnOp) (operand : OpTree)
  | binOp (op : BinOp) (left right : OpTree)

/-- An expression as it is written, with its parentheses. -/
inductive Written where
  | atom (a : Atom)
  | unOp (op : UnOp) (operand : Written)
  | binOp (op : BinOp) (left right : Written)
  | paren (inner : Written)

/-- How tight a binary operator binds. -/
def precedence : BinOp → ℕ
  | .or => 1
  | .and => 2
  | .lt | .gt | .le | .ge | .ne | .eq => 3
  | .concat => 4
  | .add | .sub => 5
  | .mul | .div | .mod => 6
  | .pow => 8

/-- How tight the unary operators bind. -/
def unaryPrecedence : ℕ := 7

def isRightAssoc : BinOp → Bool
  | .concat | .pow => true
  | _ => false

namespace OpTree

/-- As the left operand of `op` the tree needs parentheses. -/
def parensLeft (op : BinOp) : OpTree → Bool
  | .atom _ => false
  | .unOp .. => unaryPrecedence < precedence op
  | .binOp op' .. => precedence op' < precedence op || precedence op' = precedence op && isRightAssoc op

/-- As the right operand of `op` the tree needs parentheses. A unary operator in front of it groups nothing. -/
def parensRight (op : BinOp) : OpTree → Bool
  | .binOp op' .. => precedence op' < precedence op || precedence op' = precedence op && !isRightAssoc op
  | _ => false

/-- As the operand of a unary operator the tree needs parentheses. -/
def parensOperand : OpTree → Bool
  | .binOp op .. => precedence op < unaryPrecedence
  | _ => false

end OpTree

/-- Parentheses around `w`, if there are to be some. -/
def Written.enclose (parens : Bool) (w : Written) : Written := if parens then .paren w else w

/-- The tree with the parentheses that it needs. -/
def OpTree.written : OpTree → Written
  | .atom a => .atom a
  | .unOp op operand => .unOp op (operand.written.enclose operand.parensOperand)
  | .binOp op left right =>
    .binOp op (left.written.enclose (left.parensLeft op)) (right.written.enclose (right.parensRight op))

def Atom.token : Atom → Token
  | .nil => .nil
  | .true => .true
  | .false => .false
  | .varArg => .dots
  | .number n => .number n
  | .str s => .str s
  | .name s => .name s

def unOpToken : UnOp → Token
  | .neg => charToken '-'
  | .not => .not
  | .len => charToken '#'

def binOpToken : BinOp → Token
  | .add => charToken '+'
  | .sub => charToken '-'
  | .mul => charToken '*'
  | .div => charToken '/'
  | .mod => charToken '%'
  | .pow => charToken '^'
  | .concat => .concat
  | .lt => charToken '<'
  | .le => .le
  | .gt => charToken '>'
  | .ge => .ge
  | .eq => .eq
  | .ne => .ne
  | .and => .and
  | .or => .or

namespace Written

def tokens : Written → List Token
  | .atom a => [a.token]
  | .unOp op operand => unOpToken op :: operand.tokens
  | .binOp op left right => left.tokens ++ binOpToken op :: right.tokens
  | .paren inner => charToken '(' :: (inner.tokens ++ [charToken ')'])

/-- The tree without its parentheses. -/
def bare : Written → OpTree
  | .atom a => .atom a
  | .unOp op operand => .unOp op operand.bare
  | .binOp op left right => .binOp op left.bare right.bare
  | .paren inner => inner.bare

/-- How many calls for an operand nest in the call that parses this. -/
def levels : Written → ℕ
  | .atom _ => 0
  | .unOp _ operand => operand.levels + 1
  | .binOp _ left right => max left.levels (right.levels + 1)
  | .paren inner => inner.levels + 1

end Written

/-- The tokens of a tree that is written with the parentheses that it needs. -/
def OpTree.tokens (t : OpTree) : List Token := t.written.tokens

/-- How deep the operands of a tree nest that is written with the parentheses that it needs. -/
def OpTree.levels (t : OpTree) : ℕ := t.written.levels

/-- How the expression was written, if it is one of operators and atoms. -/
def Expr.written : Expr → Option Written
  | .nil _ => some (.atom .nil)
  | .true _ => some (.atom .true)
  | .false _ => some (.atom .false)
  | .number n _ => some (.atom (.number n))
  | .str s _ => some (.atom (.str s))
  | .varArg _ => some (.atom .varArg)
  | .name s _ => some (.atom (.name s))
  | .unOp op operand _ => operand.written.map (.unOp op)
  | .binOp op left right _ => left.written.bind fun l => right.written.map (.binOp op l)
  | .paren inner _ => inner.written.map .paren
  | _ => none

/-- The tree of operators that an expression is, without parentheses and positions. -/
def Expr.opTree (e : Expr) : Option OpTree := e.written.map Written.bare

@[simp] theorem Written.bare_enclose (parens : Bool) (w : Written) : (w.enclose parens).bare = w.bare := by
  cases parens <;> rfl

/-- Writing a tree adds parentheses to it and nothing else. -/
theorem OpTree.bare_written (t : OpTree) : t.written.bare = t := by
  induction t with
  | atom a => rfl
  | unOp op operand ih => simp [written, Written.bare, ih]
  | binOp op left right ihl ihr => simp [written, Written.bare, ihl, ihr]

example : (OpTree.binOp .pow (.unOp .neg (.atom (.name "a"))) (.unOp .neg (.atom (.name "b")))).tokens =
    [charToken '(', charToken '-', .name "a", charToken ')', charToken '^', charToken '-', .name "b"] := rfl

/-! ### What binds in what is written -/

namespace Written

/-- What is written is one operand to a call with this limit, and so are its parts to the calls for them. -/
def Within : ℕ → Written → Prop
  | _, .atom _ => True
  | _, .unOp _ operand => operand.Within unaryPriority
  | limit, .binOp op left right =>
    limit < (binaryPriority op).1 ∧ left.Within limit ∧ right.Within (binaryPriority op).2
  | _, .paren inner => inner.Within 0

/-- An operator behind what is written is left to it: no open operand takes it. -/
def EndsBefore (next : BinOp) : Written → Prop
  | .atom _ | .paren _ => True
  | .unOp _ operand => (binaryPriority next).1 ≤ unaryPriority ∧ operand.EndsBefore next
  | .binOp op _ right => (binaryPriority next).1 ≤ (binaryPriority op).2 ∧ right.EndsBefore next

/-- Every left operand in what is written ends before its operator. -/
def Grouped : Written → Prop
  | .atom _ => True
  | .unOp _ operand => operand.Grouped
  | .binOp op left right => left.EndsBefore op ∧ left.Grouped ∧ right.Grouped
  | .paren inner => inner.Grouped

end Written

/-! ### Priorities -/

/-- A left operand without parentheses binds tighter than its operator, and takes it in no operand. -/
theorem priority_of_parensLeft {op op' : BinOp} {l r : OpTree} (h : (OpTree.binOp op' l r).parensLeft op = false) :
    (binaryPriority op).1 ≤ (binaryPriority op').1 ∧ (binaryPriority op).1 ≤ (binaryPriority op').2 := by
  revert h
  cases op <;> cases op' <;> simp [OpTree.parensLeft, precedence, isRightAssoc, binaryPriority]

theorem priority_of_parensRight {op op' : BinOp} {l r : OpTree} (h : (OpTree.binOp op' l r).parensRight op = false) :
    (binaryPriority op).2 < (binaryPriority op').1 := by
  revert h
  cases op <;> cases op' <;> simp [OpTree.parensRight, precedence, isRightAssoc, binaryPriority]

theorem priority_of_parensOperand {op : BinOp} {l r : OpTree} (h : (OpTree.binOp op l r).parensOperand = false) :
    unaryPriority < (binaryPriority op).1 := by
  revert h
  cases op <;> simp [OpTree.parensOperand, precedence, unaryPrecedence, binaryPriority, unaryPriority]

theorem unaryPriority_of_parensLeft {op : BinOp} {op' : UnOp} {t : OpTree}
    (h : (OpTree.unOp op' t).parensLeft op = false) : (binaryPriority op).1 ≤ unaryPriority := by
  revert h
  cases op <;> simp [OpTree.parensLeft, precedence, unaryPrecedence, binaryPriority, unaryPriority]

/-- The right priority is one below the left one at most. -/
theorem left_le_right_succ (op : BinOp) : (binaryPriority op).1 ≤ (binaryPriority op).2 + 1 := by
  cases op <;> decide

/-- No operator lies between the unary operators and `^`. -/
theorem left_le_unaryPriority {next op : BinOp} (h : (binaryPriority next).1 ≤ (binaryPriority op).2) :
    (binaryPriority next).1 ≤ unaryPriority := by
  revert h
  cases next <;> cases op <;> decide

theorem left_le_of_unaryPriority {next op : BinOp} (h : (binaryPriority next).1 ≤ unaryPriority)
    (h' : unaryPriority < (binaryPriority op).1) : (binaryPriority next).1 ≤ (binaryPriority op).2 := by
  have := left_le_right_succ op
  omega

/-! ### The parentheses of the table are enough -/

namespace OpTree

/-- The operator of the tree, if it is a binary one, binds tighter than `limit`. -/
def Above (limit : ℕ) : OpTree → Prop
  | .binOp op .. => limit < (binaryPriority op).1
  | _ => True

/-- The outermost operator of the tree leaves `next` to what is around it. -/
def Leaves (next : BinOp) : OpTree → Prop
  | .atom _ => True
  | .unOp .. => (binaryPriority next).1 ≤ unaryPriority
  | .binOp op .. => (binaryPriority next).1 ≤ (binaryPriority op).2

theorem above_of_parensLeft {op : BinOp} {limit : ℕ} (hop : limit < (binaryPriority op).1) :
    ∀ {t : OpTree}, t.parensLeft op = false → t.Above limit
  | .atom _, _ => trivial
  | .unOp .., _ => trivial
  | .binOp .., h => hop.trans_le (priority_of_parensLeft h).1

theorem above_of_parensRight {op : BinOp} : ∀ {t : OpTree}, t.parensRight op = false → t.Above (binaryPriority op).2
  | .atom _, _ => trivial
  | .unOp .., _ => trivial
  | .binOp .., h => priority_of_parensRight h

theorem above_of_parensOperand : ∀ {t : OpTree}, t.parensOperand = false → t.Above unaryPriority
  | .atom _, _ => trivial
  | .unOp .., _ => trivial
  | .binOp .., h => priority_of_parensOperand h

theorem leaves_of_parensLeft {op : BinOp} : ∀ {t : OpTree}, t.parensLeft op = false → t.Leaves op
  | .atom _, _ => trivial
  | .unOp .., h => unaryPriority_of_parensLeft h
  | .binOp .., h => (priority_of_parensLeft h).2

theorem leaves_of_parensRight {op next : BinOp} (hnext : (binaryPriority next).1 ≤ (binaryPriority op).2) :
    ∀ {t : OpTree}, t.parensRight op = false → t.Leaves next
  | .atom _, _ => trivial
  | .unOp .., _ => left_le_unaryPriority hnext
  | .binOp op' .., h => by
    have := priority_of_parensRight h
    have := left_le_right_succ op'
    simp only [Leaves]
    omega

theorem leaves_of_parensOperand {next : BinOp} (hnext : (binaryPriority next).1 ≤ unaryPriority) :
    ∀ {t : OpTree}, t.parensOperand = false → t.Leaves next
  | .atom _, _ => trivial
  | .unOp .., _ => hnext
  | .binOp .., h => left_le_of_unaryPriority hnext (priority_of_parensOperand h)

/-- A property of what is written holds in parentheses, and without them where there are none. -/
theorem enclosed {P : Written → Prop} {w : Written} {parens : Bool} (hparen : P (.paren w)) (h : parens = false → P w) :
    P (w.enclose parens) := by
  cases parens with
  | true => exact hparen
  | false => exact h rfl

/-- An operator behind the tree is left to it. -/
theorem endsBefore (next : BinOp) (t : OpTree) : t.Leaves next → t.written.EndsBefore next := by
  induction t with
  | atom a => exact fun _ => trivial
  | unOp op operand ih =>
    exact fun h => ⟨h, enclosed trivial fun hparens => ih (leaves_of_parensOperand h hparens)⟩
  | binOp op left right _ ihr =>
    exact fun h => ⟨h, enclosed trivial fun hparens => ihr (leaves_of_parensRight h hparens)⟩

theorem above_zero : ∀ t : OpTree, t.Above 0
  | .atom _ => trivial
  | .unOp .. => trivial
  | .binOp op .. => by cases op <;> exact Nat.zero_lt_succ _

/-- A tree whose operator binds tighter than the limit is one operand. -/
theorem within (t : OpTree) : ∀ limit, t.Above limit → t.written.Within limit := by
  induction t with
  | atom a => exact fun _ _ => trivial
  | unOp op operand ih =>
    exact fun _ _ => enclosed (ih 0 operand.above_zero) fun hparens => ih _ (above_of_parensOperand hparens)
  | binOp op left right ihl ihr =>
    intro limit hlt
    refine ⟨hlt, ?_, ?_⟩
    · exact enclosed (ihl 0 left.above_zero) fun hparens => ihl _ (above_of_parensLeft hlt hparens)
    · exact enclosed (ihr 0 right.above_zero) fun hparens => ihr _ (above_of_parensRight hparens)

theorem grouped (t : OpTree) : t.written.Grouped := by
  induction t with
  | atom a => trivial
  | unOp op operand ih => exact enclosed ih fun _ => ih
  | binOp op left right ihl ihr =>
    refine ⟨?_, enclosed ihl fun _ => ihl, enclosed ihr fun _ => ihr⟩
    exact enclosed trivial fun hparens => left.endsBefore op (leaves_of_parensLeft hparens)

end OpTree

/-! ### Running the parser -/

section Runs

variable {α β : Type} {source : String} {c c' : Prop} {x : ParserM α} {f : α → ParserM β} {p p' : Parser} {a : α}
  {Q Q' : α → Parser → Prop} {R : β → Parser → Prop} {t : Token} {ts rest : List Token}

/-- The parser is in the main function and will read the tokens and then the end. -/
structure Sees (source : String) (ts : List Token) (p : Parser) : Prop where
  current : p.current = ts.headD .eos
  lookahead : p.lexer.lookahead = none
  scanned : ∃ xs : List Scanned, p.lexer.rest = xs.map .ok ∧ xs.map Scanned.token = ts.tail
  scopes : ∃ scope, p.funcScopes = [scope]
  source : p.lexer.sourceName = source

/-- `x` gives a result in `Q` if `c` holds; otherwise there are too many syntax levels. -/
structure Returns (source : String) (c : Prop) (x : ParserM α) (p : Parser) (Q : α → Parser → Prop) : Prop where
  ok : c → ∃ a p', (x p).2 = .ok (a, p') ∧ Q a p'
  error : ¬ c → ∃ line,
    (x p).2 = .error (.source (.syntaxError ⟨"chunk has too many syntax levels", source, line⟩))

theorem snd_bind_of_ok (f : α → ParserM β) (h : (x p).2 = .ok (a, p')) : ((x >>= f) p).2 = (f a p').2 := by
  rcases hx : x p with ⟨m, r⟩
  rw [hx] at h
  cases h
  rw [Metered.bind_of_ok f hx]

theorem snd_bind_get (f : Parser → ParserM β) (p : Parser) : ((Metered.get >>= f) p).2 = (f p p).2 := rfl

theorem snd_bind_of_error (f : α → ParserM β) {e : ParseError} (h : (x p).2 = .error e) :
    ((x >>= f) p).2 = .error e := by
  rcases hx : x p with ⟨m, r⟩
  rw [hx] at h
  cases h
  rw [Metered.bind_of_error f hx]

namespace Returns

theorem bind (h : Returns source c x p Q) (h' : ∀ a p', Q a p' → Returns source c' (f a) p' R) :
    Returns source (c ∧ c') (x >>= f) p R := by
  constructor
  · rintro ⟨hc, hc'⟩
    obtain ⟨a, p', hx, hQ⟩ := h.ok hc
    rw [snd_bind_of_ok f hx]
    exact (h' a p' hQ).ok hc'
  · intro hnot
    by_cases hc : c
    · obtain ⟨a, p', hx, hQ⟩ := h.ok hc
      rw [snd_bind_of_ok f hx]
      exact (h' a p' hQ).error fun hc' => hnot ⟨hc, hc'⟩
    · obtain ⟨line, hx⟩ := h.error hc
      exact ⟨line, snd_bind_of_error f hx⟩

/-- What follows takes no syntax level. -/
theorem andThen (h : Returns source c x p Q) (h' : ∀ a p', Q a p' → Returns source True (f a) p' R) :
    Returns source c (x >>= f) p R := by
  have hbind := h.bind h'
  exact ⟨fun hc => hbind.ok ⟨hc, trivial⟩, fun hc => hbind.error fun hboth => hc hboth.1⟩

/-- A step that takes no syntax level. -/
theorem step (h : (x p).2 = .ok (a, p')) (h' : Returns source c (f a) p' R) : Returns source c (x >>= f) p R := by
  constructor
  · intro hc
    rw [snd_bind_of_ok f h]
    exact h'.ok hc
  · intro hc
    rw [snd_bind_of_ok f h]
    exact h'.error hc

theorem iff (h : Returns source c x p Q) (hc : c ↔ c') : Returns source c' x p Q :=
  ⟨fun h' => h.ok (hc.mpr h'), fun h' => h.error fun h'' => h' (hc.mp h'')⟩

theorem mono (h : Returns source c x p Q) (hQ : ∀ a p', Q a p' → Q' a p') : Returns source c x p Q' := by
  refine ⟨fun hc => ?_, h.error⟩
  obtain ⟨a, p', hx, hres⟩ := h.ok hc
  exact ⟨a, p', hx, hQ a p' hres⟩

/-- The computation succeeds, and takes no syntax level. -/
theorem of_ok (h : (x p).2 = .ok (a, p')) (hQ : Q a p') : Returns source True x p Q :=
  ⟨fun _ => ⟨a, p', h, hQ⟩, fun hnot => absurd trivial hnot⟩

protected theorem pure (h : Q a p) : Returns source True (pure a) p Q := .of_ok rfl h

/-- A part of the tree is built. -/
theorem built {f : α → ParserM β} [Tree α] (h : Returns source c (f a) p R) : Returns source c (build a >>= f) p R :=
  ⟨h.ok, h.error⟩

theorem looped {f : Unit → ParserM β} {n : ℕ} {expr : Expr} (h : Returns source c (f ()) p R) :
    Returns source c (looped n expr >>= f) p R :=
  ⟨h.ok, h.error⟩

theorem build [Tree α] (h : Q a p) : Returns source True (build a) p Q := .of_ok rfl h

theorem called (h : Returns source c x p Q) : Returns source c (called x) p Q := ⟨h.ok, h.error⟩

/-- The loop ends at once. -/
theorem repeated {γ : Type} {f : β → ParserM (β ⊕ γ)} {b : β} {r : γ} {k : ℕ} {R : γ → Parser → Prop}
    (h : (f b p).2 = .ok (.inr r, p')) (h' : Returns source c (pure r) p' R) :
    Returns source c (Metered.repeatFor .fuel f (k + 1) b) p R := by
  rw [Metered.repeatFor]
  exact .step h h'

theorem loop {γ : Type} {f : β → ParserM (β ⊕ γ)} {b : β} {R : γ → Parser → Prop}
    (h : Returns source c (Metered.repeatFor .fuel f (p.size + 1) b) p R) : Returns source c (loop f b) p R :=
  ⟨h.ok, h.error⟩

end Returns

/-- There is a token for each that is seen. -/
theorem Sees.length_le (h : Sees source ts p) : ts.length ≤ p.size + 1 := by
  obtain ⟨xs, hrest, htokens⟩ := h.scanned
  have hlength : xs.length = ts.length - 1 := by rw [← List.length_tail, ← htokens, List.length_map]
  simp only [Parser.size, Lexer.size, hrest, List.length_map]
  omega

theorem Sees.advance (h : Sees source (t :: ts) p) :
    ∃ p', (advance p).2 = .ok ((t, p.span), p') ∧ Sees source ts p' := by
  obtain ⟨⟨rest, lookahead, line, text, name⟩, current, span, lastline, loopDepth, funcScopes⟩ := p
  obtain ⟨hcurrent, hlookahead, ⟨xs, hrest, htokens⟩, hscopes, hsource⟩ := h
  dsimp only [List.headD_cons, List.tail_cons] at hcurrent hlookahead hrest htokens hscopes hsource
  subst hcurrent hlookahead hrest
  cases xs with
  | nil =>
    subst htokens
    exact ⟨_, rfl, rfl, rfl, ⟨[], rfl, rfl⟩, hscopes, hsource⟩
  | cons x xs =>
    subst htokens
    exact ⟨_, rfl, rfl, rfl, ⟨xs, rfl, rfl⟩, hscopes, hsource⟩

/-- A function that reads the current token and goes on behind it. -/
theorem Returns.advance {f : Token × Span → ParserM β} (h : Sees source (t :: ts) p)
    (h' : ∀ p', Sees source ts p' → Returns source c (f (t, p.span)) p' R) : Returns source c (advance >>= f) p R := by
  obtain ⟨p', hadv, hsees⟩ := h.advance
  exact .step hadv (h' p' hsees)

theorem Returns.get {f : Parser → ParserM β} (h : Returns source c (f p) p R) :
    Returns source c (Metered.get >>= f) p R :=
  ⟨h.ok, h.error⟩

theorem Returns.expectChar {ch : Char} {f : Unit → ParserM β} (h : Sees source (charToken ch :: ts) p)
    (h' : ∀ p', Sees source ts p' → Returns source c (f ()) p' R) : Returns source c (expectChar ch >>= f) p R := by
  obtain ⟨p', hadv, hsees⟩ := h.advance
  have hcheck : (checkChar ch p).2 = .ok (true, p) := by
    change Except.ok (decide (p.current = charToken ch), p) = _
    rw [h.current, List.headD_cons, decide_eq_true rfl]
  have hexpect : (Compiler.expectChar ch p).2 = .ok ((), p') := by
    rw [Compiler.expectChar, snd_bind_of_ok _ hcheck, if_pos rfl, snd_bind_of_ok _ hadv]
    rfl
  exact .step hexpect (h' p' hsees)

/-- A name of the main function is no upvalue. -/
theorem checkNameUpvalue_of_sees (name : String) (h : Sees source ts p) :
    (checkNameUpvalue name p).2 = .ok ((), p) := by
  obtain ⟨scope, hscopes⟩ := h.scopes
  rw [checkNameUpvalue, snd_bind_get, hscopes]
  dsimp only
  split
  · rfl
  · rfl

/-! ### Operands -/

/-- The token goes on with the operand before it. -/
def startsSuffix : Token → Bool
  | .str _ => true
  | t => t = charToken '.' ∨ t = charToken '[' ∨ t = charToken ':' ∨ t = charToken '(' ∨ t = charToken '{'

/-- What is written ends before the token. -/
structure Ends (w : Written) (t : Token) : Prop where
  suffix : startsSuffix t = false
  op : ∀ op, getBinaryOp t = some op → w.EndsBefore op

theorem getBinaryOp_binOpToken (op : BinOp) : getBinaryOp (binOpToken op) = some op := by
  cases op <;> decide

theorem getUnaryOp_unOpToken (op : UnOp) : getUnaryOp (unOpToken op) = some op := by
  cases op <;> decide

theorem ends_binOpToken {op : BinOp} {w : Written} (h : w.EndsBefore op) : Ends w (binOpToken op) := by
  refine ⟨by cases op <;> decide, fun op' hop => ?_⟩
  rw [getBinaryOp_binOpToken] at hop
  cases hop
  exact h

theorem ends_close (w : Written) : Ends w (charToken ')') :=
  ⟨by decide, fun op hop => by simp [getBinaryOp, charToken] at hop⟩

theorem ends_eos (w : Written) : Ends w .eos := ⟨by decide, fun op hop => by simp [getBinaryOp, charToken] at hop⟩

variable {nest : Nested} {limit : ℕ} {w : Written} {e : Expr}

theorem parseSuffix_none (hsuffix : startsSuffix p.current = false) : (parseSuffix nest e p).2 = .ok (none, p) := by
  rw [parseSuffix, snd_bind_get]
  revert hsuffix
  generalize p.current = t
  intro hsuffix
  cases t <;> simp_all [startsSuffix]

/-- An operand that nothing follows. -/
theorem Returns.suffixed {Q : Expr → Parser → Prop} (h : Returns source c (parsePrimaryExpr nest) p Q)
    (hQ : ∀ e p', Q e p' → startsSuffix p'.current = false) : Returns source c (parseSuffixedExpr nest) p Q := by
  refine .called (h.andThen fun e p' hres => ?_)
  refine .loop (.repeated ?_ (.pure hres))
  dsimp only
  rw [snd_bind_of_ok _ (parseSuffix_none (hQ e p' hres))]
  rfl

/-- The expression was written as `w`, and the rest is still to be read. -/
structure Reached (source : String) (w : Written) (rest : List Token) (e : Expr) (p : Parser) : Prop where
  written : e.written = some w
  sees : Sees source rest p

theorem Reached.suffix (h : Reached source w rest e p) (hends : Ends w (rest.headD .eos)) :
    startsSuffix p.current = false := by
  rw [h.sees.current]
  exact hends.suffix

/-- A literal is one token. -/
theorem Returns.literal (h : Sees source (t :: rest) p) (he : e.written = some w) :
    Returns source True (do
      let _ ← Compiler.advance
      Compiler.build e) p (Reached source w rest) :=
  .advance h fun _ hsees => .build ⟨he, hsees⟩

/-- A name or an expression in parentheses is a simple expression. -/
theorem Returns.simple {Q : Expr → Parser → Prop} (hcurrent : p.current = t)
    (ht : t = charToken '(' ∨ ∃ name, t = .name name) (h : Returns source c (parsePrimaryExpr nest) p Q)
    (hQ : ∀ e p', Q e p' → startsSuffix p'.current = false) : Returns source c (parseOperand nest) p Q := by
  have hunary : getUnaryOp p.current = none := by
    rcases ht with rfl | ⟨name, rfl⟩ <;> rw [hcurrent] <;> simp [getUnaryOp, charToken]
  have hsuffixed := h.suffixed hQ
  refine .get ?_
  simp only [hunary]
  refine .called (.get ?_)
  rcases ht with rfl | ⟨name, rfl⟩
  · simp only [hcurrent]
    exact hsuffixed
  · simp only [hcurrent]
    exact hsuffixed

/-- An atom is parsed. -/
theorem Returns.atom {a : Atom} (h : Sees source (a.token :: rest) p) (hends : Ends (.atom a) (rest.headD .eos)) :
    Returns source True (parseOperand nest) p (Reached source (.atom a) rest) := by
  have hcurrent : p.current = a.token := h.current
  by_cases hname : ∃ name, a = .name name
  · obtain ⟨name, rfl⟩ := hname
    refine .simple hcurrent (.inr ⟨name, rfl⟩) (.called (.get ?_)) fun e p' hres => hres.suffix hends
    simp only [hcurrent, Atom.token]
    refine .advance h fun p' hsees => .step (checkNameUpvalue_of_sees name hsees) ?_
    exact .build ⟨rfl, hsees⟩
  · have hunary : getUnaryOp p.current = none := by
      rw [hcurrent]
      cases a <;> simp [Atom.token, getUnaryOp, charToken]
    refine .get ?_
    simp only [hunary]
    refine .called (.get ?_)
    cases a with
    | name name => exact absurd ⟨name, rfl⟩ hname
    | _ =>
      simp only [hcurrent, Atom.token]
      exact .literal h rfl

/-- What a call for an operand returns. -/
def Parses (source : String) (w : Written) : Prop :=
  ∀ (levels : ℕ) {limit : ℕ} {rest : List Token} {p : Parser}, Sees source (w.tokens ++ rest) p → w.Within limit →
    Ends w (rest.headD .eos) → (∀ op, getBinaryOp (rest.headD .eos) = some op → (binaryPriority op).1 ≤ limit) →
    Returns source (w.levels < levels) ((nested levels).subExpr limit) p (Reached source w rest)

/-- An expression in parentheses is parsed. -/
theorem Returns.paren {inner : Written} {levels : ℕ} (hinner : Parses source inner) (hwithin : inner.Within 0)
    (h : Sees source ((Written.paren inner).tokens ++ rest) p) (hends : Ends (.paren inner) (rest.headD .eos)) :
    Returns source (inner.levels < levels) (parseOperand (nested levels)) p (Reached source (.paren inner) rest) := by
  have hcurrent : p.current = charToken '(' := h.current
  refine .simple hcurrent (.inl rfl) (.called (.get ?_)) fun e p' hres => hres.suffix hends
  simp only [hcurrent]
  rw [Written.tokens, List.cons_append, List.append_assoc, List.singleton_append] at h
  refine .advance h fun p' hsees => ?_
  have hexpr := hinner levels hsees hwithin (ends_close inner) fun op hop => by simp [getBinaryOp, charToken] at hop
  refine hexpr.called.andThen fun e p'' hres => ?_
  refine .expectChar hres.sees fun p₃ hsees' => .build ⟨?_, hsees'⟩
  rw [Expr.written, hres.written, Option.map_some]

/-! ### The loop over operators -/

/-- What the loop of `parseSubExpr` does each time. -/
def binaryStep (nest : Nested) (limit : ℕ) (span : Span) : ℕ × Expr → ParserM ((ℕ × Expr) ⊕ Expr) :=
    fun (n, expr) => do
  match ← parseBinary nest limit span expr with
  | some expr =>
    looped (n + 1) expr
    pure (.inl (n + 1, expr))
  | none => pure (.inr expr)

/-- What is written is parsed in front, and the loop goes on behind it. -/
def Leads (source : String) (w : Written) : Prop :=
  ∀ (levels : ℕ) {limit : ℕ} (span : Span) {rest : List Token} {p : Parser} {c : Prop} {R : Expr → Parser → Prop},
    Sees source (w.tokens ++ rest) p → w.Within limit → w.Grouped → Ends w (rest.headD .eos) →
    (∀ n e p' k, Reached source w rest e p' → rest.length ≤ k + 1 →
      Returns source c (Metered.repeatFor .fuel (binaryStep (nested levels) limit span) (k + 1) (n, e)) p' R) →
    Returns source (w.levels ≤ levels ∧ c) (do
      let first ← parseOperand (nested levels)
      loop (binaryStep (nested levels) limit span) (0, first)) p R

/-- Behind an operand the loop starts with enough fuel. -/
theorem leads_of_operand {b : Prop} {levels : ℕ} {span : Span} {R : Expr → Parser → Prop}
    (h : Returns source b (parseOperand (nested levels)) p (Reached source w rest))
    (hloop : ∀ n e p' k, Reached source w rest e p' → rest.length ≤ k + 1 →
      Returns source c (Metered.repeatFor .fuel (binaryStep (nested levels) limit span) (k + 1) (n, e)) p' R) :
    Returns source (b ∧ c) (do
      let first ← parseOperand (nested levels)
      loop (binaryStep (nested levels) limit span) (0, first)) p R :=
  h.bind fun e p' hres => .loop (hloop 0 e p' p'.size hres hres.sees.length_le)

theorem tokens_pos : ∀ w : Written, 0 < w.tokens.length
  | .atom _ => Nat.zero_lt_one
  | .unOp .. => Nat.zero_lt_succ _
  | .binOp .. => by simp [Written.tokens]
  | .paren _ => Nat.zero_lt_succ _

/-- An operator that binds tighter than the limit takes its right operand, and the loop goes on. -/
theorem Returns.binaryStep {op : BinOp} {left right : Written} {levels n k : ℕ} {span : Span}
    {R : Expr → Parser → Prop} (hright : Parses source right) (hlimit : limit < (binaryPriority op).1)
    (hwithin : right.Within (binaryPriority op).2) (hends : Ends (.binOp op left right) (rest.headD .eos))
    (h : Reached source left (binOpToken op :: (right.tokens ++ rest)) e p)
    (hk : (binOpToken op :: (right.tokens ++ rest)).length ≤ k + 1)
    (hloop : ∀ n e p' k, Reached source (.binOp op left right) rest e p' → rest.length ≤ k + 1 →
      Returns source c (Metered.repeatFor .fuel (binaryStep (nested levels) limit span) (k + 1) (n, e)) p' R) :
    Returns source (right.levels < levels ∧ c)
      (Metered.repeatFor .fuel (binaryStep (nested levels) limit span) (k + 1) (n, e)) p R := by
  have hcurrent : p.current = binOpToken op := h.sees.current
  have hpos := tokens_pos right
  obtain ⟨k, rfl⟩ : ∃ k', k = k' + 1 := by
    refine ⟨k - 1, ?_⟩
    simp only [List.length_cons, List.length_append] at hk
    omega
  have hk' : rest.length ≤ k + 1 := by
    simp only [List.length_cons, List.length_append] at hk
    omega
  have hstep : Returns source (right.levels < levels) (parseBinary (nested levels) limit span e) p fun r p' =>
      ∃ e', r = some e' ∧ Reached source (.binOp op left right) rest e' p' := by
    refine .get ?_
    simp only [hcurrent, getBinaryOp_binOpToken]
    rw [if_neg (Nat.not_le.mpr hlimit)]
    refine .advance h.sees fun p' hsees => ?_
    have hoperand := hright levels hsees hwithin ⟨hends.suffix, fun op' hop => (hends.op op' hop).2⟩
      fun op' hop => (hends.op op' hop).1
    refine hoperand.andThen fun e' p'' hres => ?_
    refine .built (.pure ⟨_, rfl, ?_, hres.sees⟩)
    rw [Expr.written, h.written, hres.written, Option.bind_some, Option.map_some]
  rw [Metered.repeatFor]
  have hbody : Returns source (right.levels < levels) (Compiler.binaryStep (nested levels) limit span (n, e)) p
      fun r p' => ∃ e', r = .inl (n + 1, e') ∧ Reached source (.binOp op left right) rest e' p' := by
    refine hstep.andThen fun r p' hres => ?_
    obtain ⟨e', rfl, hres⟩ := hres
    exact .looped (.pure ⟨e', rfl, hres⟩)
  refine hbody.bind fun r p' hres => ?_
  obtain ⟨e', rfl, hres⟩ := hres
  exact hloop (n + 1) e' p' k hres hk'

/-- The loop ends where no operator binds tighter than the limit. -/
theorem Returns.binaryEnd {nest : Nested} {n k : ℕ} {span : Span} (h : Reached source w rest e p)
    (hop : ∀ op, getBinaryOp (rest.headD .eos) = some op → (binaryPriority op).1 ≤ limit) :
    Returns source True (Metered.repeatFor .fuel (Compiler.binaryStep nest limit span) (k + 1) (n, e)) p
      (Reached source w rest) := by
  have hbinary : (parseBinary nest limit span e p).2 = .ok (none, p) := by
    rw [parseBinary, snd_bind_get, h.sees.current]
    cases hsome : getBinaryOp (rest.headD .eos) with
    | none => rfl
    | some op =>
      dsimp only
      rw [if_pos (hop op hsome)]
      rfl
  refine .repeated ?_ (.pure h)
  rw [Compiler.binaryStep, snd_bind_of_ok _ hbinary]
  rfl

/-- A call for an operand parses what is led by it. -/
theorem Leads.parses (h : Leads source w) (hgrouped : w.Grouped) : Parses source w := by
  intro levels limit rest p hsees hwithin hends hop
  cases levels with
  | zero => exact ⟨fun hlt => absurd hlt (Nat.not_lt_zero _), fun _ => ⟨p.span.line, by rw [← hsees.source]; rfl⟩⟩
  | succ levels =>
    refine .called (.get ?_)
    have hlead := h levels (c := True) p.span hsees hwithin hgrouped hends
      fun n e p' k hres _ => .binaryEnd (k := k) hres hop
    exact hlead.iff ((and_iff_left trivial).trans Nat.lt_succ_iff.symm)

/-- Everything that is grouped is parsed as it was written. By induction on the tree: the left operand is parsed in
    the same call, so the loop of the whole goes on behind it. -/
theorem leads (w : Written) : Leads source w := by
  induction w with
  | atom a =>
    intro levels limit span rest p c R hsees _ _ hends hloop
    exact (leads_of_operand (.atom hsees hends) hloop).iff ⟨fun h => ⟨Nat.zero_le _, h.2⟩, fun h => ⟨trivial, h.2⟩⟩
  | paren inner ih =>
    intro levels limit span rest p c R hsees hwithin hgrouped hends hloop
    exact leads_of_operand (.paren (ih.parses hgrouped) hwithin hsees hends) hloop
  | unOp op operand ih =>
    intro levels limit span rest p c R hsees hwithin hgrouped hends hloop
    have hcurrent : p.current = unOpToken op := hsees.current
    refine leads_of_operand (.get ?_) hloop
    simp only [hcurrent, getUnaryOp_unOpToken]
    refine .advance hsees fun p' hsees' => ?_
    have hoperand := ih.parses hgrouped levels hsees' hwithin ⟨hends.suffix, fun op hop => (hends.op op hop).2⟩
      fun op hop => (hends.op op hop).1
    refine hoperand.andThen fun e p'' hres => ?_
    refine .build ⟨?_, hres.sees⟩
    rw [Expr.written, hres.written, Option.map_some]
  | binOp op left right ihl ihr =>
    intro levels limit span rest p c R hsees hwithin hgrouped hends hloop
    obtain ⟨hlimit, hleft, hright⟩ := hwithin
    obtain ⟨hendsLeft, hgroupedLeft, hgroupedRight⟩ := hgrouped
    rw [Written.tokens, List.append_assoc, List.cons_append] at hsees
    have hlead := ihl levels span hsees hleft hgroupedLeft (ends_binOpToken hendsLeft)
      fun n e p' k hres hk => .binaryStep (ihr.parses hgroupedRight) hlimit hright hends hres hk hloop
    refine hlead.iff ?_
    simp only [Written.levels, max_le_iff, Nat.succ_le_iff, and_assoc]

/-! ### A chunk that returns an expression -/

/-- The token begins an expression of operators. -/
def startsOperand (t : Token) : Prop := (∃ a : Atom, t = a.token) ∨ (∃ op, t = unOpToken op) ∨ t = charToken '('

theorem startsOperand_tokens (w : Written) : ∃ t ts, w.tokens = t :: ts ∧ startsOperand t := by
  induction w with
  | atom a => exact ⟨_, _, rfl, .inl ⟨a, rfl⟩⟩
  | unOp op operand _ => exact ⟨_, _, rfl, .inr (.inl ⟨op, rfl⟩)⟩
  | binOp op left right ih _ =>
    obtain ⟨t, ts, heq, ht⟩ := ih
    exact ⟨t, ts ++ binOpToken op :: right.tokens, by rw [Written.tokens, heq, List.cons_append], ht⟩
  | paren inner _ => exact ⟨_, _, rfl, .inr (.inr rfl)⟩

/-- The token stands behind a block. -/
def endsBlock : Token → Bool
  | .else | .elseIf | .end | .until | .eos => true
  | _ => false

theorem isBlockFollow_eq (p : Parser) : (isBlockFollow p).2 = .ok (endsBlock p.current, p) := by
  rw [isBlockFollow, snd_bind_get]
  cases p.current <;> rfl

/-- Where an expression begins, a `return` has values. -/
theorem startsOperand.values (ht : startsOperand t) (hcurrent : p.current = t) :
    (isBlockFollow p).2 = .ok (false, p) ∧ (checkChar ';' p).2 = .ok (false, p) := by
  have hsemicolon : (checkChar ';' p).2 = .ok (decide (p.current = charToken ';'), p) := rfl
  rw [isBlockFollow_eq, hsemicolon, hcurrent]
  rcases ht with ⟨a, rfl⟩ | ⟨op, rfl⟩ | rfl
  · cases a <;> exact ⟨rfl, rfl⟩
  · cases op <;> exact ⟨rfl, rfl⟩
  · exact ⟨rfl, rfl⟩

/-- A separator that is not there is not taken. -/
theorem testNextChar_of_ne {ch : Char} (h : p.current ≠ charToken ch) : (testNextChar ch p).2 = .ok (false, p) := by
  have hcheck : (checkChar ch p).2 = .ok (false, p) := by
    change Except.ok (decide (p.current = charToken ch), p) = _
    rw [decide_eq_false h]
  rw [testNextChar, snd_bind_of_ok _ hcheck]
  rfl

/-- A list of one expression ends with the chunk. -/
theorem Returns.exprList {levels : ℕ} (h : Sees source w.tokens p) (hwithin : w.Within 0) (hgrouped : w.Grouped) :
    Returns source (w.levels < levels) (parseExprList (nested levels)) p fun es p' =>
      ∃ e, es = [e] ∧ Reached source w [] e p' := by
  rw [← List.append_nil w.tokens] at h
  have hleads : Leads source w := leads w
  have hexpr := hleads.parses hgrouped levels h hwithin (ends_eos w)
    fun op hop => by simp [getBinaryOp, charToken] at hop
  refine .called (hexpr.called.andThen fun e p' hres => ?_)
  have hne : p'.current ≠ charToken ',' := by
    rw [hres.sees.current]
    decide
  refine .loop (.repeated ?_ (.pure ⟨e, rfl, hres⟩))
  rw [snd_bind_of_ok _ (testNextChar_of_ne hne)]
  rfl

/-- The statement that returns what is written. -/
theorem Returns.return {levels : ℕ} {span : Span} (h : Sees source (.return :: w.tokens) p) (hwithin : w.Within 0)
    (hgrouped : w.Grouped) : Returns source (w.levels < levels) (parseReturn (nested levels) span) p fun stat p' =>
      ∃ e, stat = .return [e] span ∧ Reached source w [] e p' := by
  refine .called (.advance h fun p' hsees => ?_)
  obtain ⟨t, ts, heq, ht⟩ := startsOperand_tokens w
  have hcurrent : p'.current = t := by rw [hsees.current, heq, List.headD_cons]
  obtain ⟨hfollow, hsemicolon⟩ := ht.values hcurrent
  refine .step hfollow (.step hsemicolon ?_)
  rw [if_neg (by decide)]
  refine (Returns.exprList hsees hwithin hgrouped).andThen fun es p'' hres => ?_
  obtain ⟨e, rfl, hres⟩ := hres
  exact .build ⟨e, rfl, hres⟩

theorem restoreLocals_eq (saved : Option FuncScope) (p : Parser) : (restoreLocals saved p).2 =
    .ok ((), { p with funcScopes := p.funcScopes.modifyHead fun scope =>
      match saved with
      | some s => { scope with
          localCount := s.localCount, localNames := scope.localNames.take s.localNames.length }
      | none => scope }) :=
  rfl

/-- A block that returns what is written. -/
theorem Returns.block {levels : ℕ} (h : Sees source (.return :: w.tokens) p) (hwithin : w.Within 0)
    (hgrouped : w.Grouped) : Returns source (w.levels < levels) (parseBlock (nested levels)) p fun stmts p' =>
      ∃ e span, stmts = [.return [e] span] ∧ e.written = some w ∧ p'.current = .eos := by
  have hcurrent : p.current = .return := h.current
  have hfollow : (isBlockFollow p).2 = .ok (false, p) := by
    rw [isBlockFollow_eq, hcurrent]
    rfl
  refine .called (.get ?_)
  have hstat : Returns source (w.levels < levels) (parseStat (nested levels)) p fun stat p' =>
      ∃ e, stat = .return [e] p.span ∧ Reached source w [] e p' := by
    refine .called (.get ?_)
    simp only [hcurrent]
    exact .return h hwithin hgrouped
  refine Returns.andThen (Q := fun stmts p' => ∃ e, stmts = [.return [e] p.span] ∧ Reached source w [] e p')
    (.loop ?_) fun stmts p' hres => ?_
  · rw [Metered.repeatFor]
    refine Returns.andThen (Q := fun r p' => ∃ e, r = .inr [.return [e] p.span] ∧ Reached source w [] e p')
      (.step hfollow ?_) fun r p' hres => ?_
    · refine hstat.andThen fun stat p' hres => ?_
      obtain ⟨e, rfl, hres⟩ := hres
      have hne : p'.current ≠ charToken ';' := by
        rw [hres.sees.current]
        decide
      exact .step (testNextChar_of_ne hne) (.pure ⟨e, rfl, hres⟩)
    · obtain ⟨e, rfl, hres⟩ := hres
      exact .pure ⟨e, rfl, hres⟩
  · obtain ⟨e, rfl, hres⟩ := hres
    exact .step (restoreLocals_eq _ p') (.pure ⟨e, p.span, rfl, hres.written, hres.sees.current⟩)

/-- A chunk that returns what is written has one statement, if there are enough syntax levels. -/
theorem Returns.chunk (h : Sees source (.return :: w.tokens) p) (hwithin : w.Within 0) (hgrouped : w.Grouped) :
    Returns source (w.levels < 199) parseChunk p fun block _ =>
      ∃ e span, block = [.return [e] span] ∧ e.written = some w := by
  have hblock : Returns source (w.levels < 199) (nested maxSyntaxLevels).block p fun stmts p' =>
      ∃ e span, stmts = [.return [e] span] ∧ e.written = some w ∧ p'.current = .eos := .block h hwithin hgrouped
  refine .called (hblock.andThen fun block p' hres => ?_)
  obtain ⟨e, span, rfl, hwritten, heos⟩ := hres
  have hcheck : (check .eos p').2 = .ok (true, p') := by
    change Except.ok (decide (p'.current.kind = _), p') = _
    rw [heos]
    rfl
  exact .step hcheck (.pure ⟨e, span, rfl, hwritten⟩)

end Runs

/-- The parser has read a token and will read the others. -/
theorem sees_scanned {lexer : Lexer} {x : Scanned} {xs : List Scanned} (hrest : lexer.rest = (x :: xs).map .ok)
    (hlookahead : lexer.lookahead = none) : ∃ p, Sees lexer.sourceName ((x :: xs).map Scanned.token) p ∧
      (parse lexer).2 = (parseChunk p).2.map Prod.fst := by
  obtain ⟨rest, lookahead, line, text, name⟩ := lexer
  dsimp only at hrest hlookahead
  subst hrest hlookahead
  exact ⟨_, ⟨rfl, rfl, ⟨xs, rfl, rfl⟩, ⟨_, rfl⟩, rfl⟩, rfl⟩

/-- Parsing a chunk that returns what was written gives it back, if there are enough syntax levels. -/
theorem parse_return (lexer : Lexer) {xs : List Scanned} {w : Written} (hwithin : w.Within 0) (hgrouped : w.Grouped)
    (hrest : lexer.rest = xs.map .ok) (hlookahead : lexer.lookahead = none)
    (htokens : xs.map Scanned.token = .return :: w.tokens) :
    (w.levels < 199 → ∃ e span, (parse lexer).2 = .ok [.return [e] span] ∧ e.written = some w) ∧
      (¬ w.levels < 199 → ∃ line, (parse lexer).2 =
        .error (.source (.syntaxError ⟨"chunk has too many syntax levels", lexer.sourceName, line⟩))) := by
  cases xs with
  | nil => cases htokens
  | cons x xs =>
    obtain ⟨p, hsees, hparse⟩ := sees_scanned hrest hlookahead
    rw [htokens] at hsees
    have hchunk := Returns.chunk hsees hwithin hgrouped
    refine ⟨fun hlt => ?_, fun hlt => ?_⟩
    · obtain ⟨block, p', hok, e, span, rfl, hwritten⟩ := hchunk.ok hlt
      exact ⟨e, span, by rw [hparse, hok]; rfl, hwritten⟩
    · obtain ⟨line, herror⟩ := hchunk.error hlt
      exact ⟨line, by rw [hparse, herror]; rfl⟩

/-- The tokens as a lexer delivers them, all on one line. -/
def lexerOf (tokens : List Token) : Lexer where
  rest := (tokens.map fun token => ⟨token, ⟨1⟩, 1, ""⟩).map .ok
  sourceName := "=chunk"

/-- `not` in front of `true`, so often. -/
def nots : ℕ → OpTree
  | 0 => .atom .true
  | n + 1 => .unOp .not (nots n)

theorem levels_nots : ∀ n, (nots n).levels = n
  | 0 => rfl
  | n + 1 => by
    have henclose : (nots n).written.enclose (nots n).parensOperand = (nots n).written := by cases n <;> rfl
    rw [OpTree.levels, nots, OpTree.written, henclose, Written.levels]
    exact congrArg Nat.succ (levels_nots n)

/-- A chunk that nests operands too deep is not parsed. -/
theorem parse_nots : ¬ ∃ e span, (parse (lexerOf (.return :: (nots 199).tokens))).2 = .ok [.return [e] span] ∧
    e.opTree = some (nots 199) := by
  have htokens : ((Token.return :: (nots 199).tokens).map fun token => (⟨token, ⟨1⟩, 1, ""⟩ : Scanned)).map
      Scanned.token = Token.return :: (nots 199).tokens := by rw [List.map_map]; exact List.map_id _
  have hparse := parse_return (lexerOf (.return :: (nots 199).tokens))
    ((nots 199).within 0 (nots 199).above_zero) (nots 199).grouped rfl rfl htokens
  obtain ⟨line, herror⟩ := hparse.2 (by rw [← OpTree.levels, levels_nots]; decide)
  rintro ⟨e, span, hok, -⟩
  rw [herror] at hok
  cases hok

/-- An expression of operators and atoms that is written with the parentheses that the precedence table asks for is
    parsed as the tree that it is, if its operands nest less than 199 deep. Otherwise there are too many syntax
    levels. -/
theorem parse_tokens (t : OpTree) (lexer : Lexer) (xs : List Scanned) (hrest : lexer.rest = xs.map .ok)
    (hlookahead : lexer.lookahead = none) (htokens : xs.map Scanned.token = .return :: t.tokens) :
    (t.levels < 199 → ∃ e span, (parse lexer).2 = .ok [.return [e] span] ∧ e.opTree = some t) ∧
      (199 ≤ t.levels → ∃ line, (parse lexer).2 =
        .error (.source (.syntaxError ⟨"chunk has too many syntax levels", lexer.sourceName, line⟩))) := by
  have hparse := parse_return lexer (t.within 0 t.above_zero) t.grouped hrest hlookahead htokens
  refine ⟨fun hlt => ?_, fun hle => hparse.2 (Nat.not_lt.mpr hle)⟩
  obtain ⟨e, span, hok, hwritten⟩ := hparse.1 hlt
  exact ⟨e, span, hok, by rw [Expr.opTree, hwritten, Option.map_some, t.bare_written]⟩

/-- `-a ^ b .. c` is the negation of a power, joined to `c`. -/
theorem parse_tokens_neg_pow_concat : ∃ e span, (parse (lexerOf [.return, charToken '-', .name "a", charToken '^',
      .name "b", .concat, .name "c"])).2 = .ok [.return [e] span] ∧
    e.opTree = some (.binOp .concat (.unOp .neg (.binOp .pow (.atom (.name "a")) (.atom (.name "b"))))
      (.atom (.name "c"))) :=
  (parse_tokens _ _ _ rfl rfl rfl).1 (by decide)

end Rilua.Compiler
