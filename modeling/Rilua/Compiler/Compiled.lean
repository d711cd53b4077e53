import Rilua.Compiler.ScopesKept

/-! Every chunk that compiles is well formed, with all the functions in it. By induction on the syntax tree, an expression
    leaves the scopes as they are, and a statement declares local variables and makes them visible. -/

namespace Rilua.Codegen

open Lib Vm Rilua.Compiler

/-- The shape of a function whose parameters have their registers, without local variables. -/
def Shape.body (numParams : ℕ) : Shape := { numParams, entered := true }

theorem removeLocals_code {I : Type} (fs : FuncState I) (level : ℕ) :
    (fs.removeLocals level).proto.code = fs.proto.code := by
  rw [FuncState.removeLocals]
  generalize fs.numActiveVars - level = k
  induction k generalizing fs with
  | zero => rfl
  | succ k ih =>
    rw [Function.iterate_succ_apply, ih, FuncState.removeLocal]
    split <;> rfl

section

variable {I : Type} [Words I] {α β : Type} {sh : Shape} {outer : List Shape} {fs : FuncState I} {l : List ℕ} {n line : ℕ}

/-! ### Functions -/

theorem new_ok (source : String) : (FuncState.new source : FuncState I).Ok 0 {} := by
  constructor <;> try simp [FuncState.new, maxStack, luaiMaxUpvalues]
  constructor <;> simp

/-- The prototype of a function without open scopes. -/
theorem FuncState.Ok.wellFormed (h : fs.Ok 0 (.body n)) (hret : fs.proto.code.getLast? = some (Words.word (.abc .return 0 1 0)))
    (hnames : fs.proto.upvalueNames = fs.upvalues.map (·.name)) : fs.proto.WellFormed := by
  have hactive : fs.activeVars = [] := h.activeVars
  refine .intro ⟨h.lines, hret, h.stack, h.numParams.trans_le (h.params rfl), ?_, ?_, fun hlen v hv => ?_⟩ h.protos
  · rw [hnames, List.length_map]
    exact h.upvalues
  · refine ⟨h.pool.limit, h.pool.plain, fun i j v w key hv hw hkv hkw => ?_, h.pool.strings, h.pool.stringsOnce,
      fun i j hi hj hni hnj => ?_⟩
    · have hi := (h.pool.lookup key i).mpr ⟨v, hv, hkv⟩
      have hj := (h.pool.lookup key j).mpr ⟨w, hw, hkw⟩
      exact Option.some.inj (hi.symm.trans hj)
    · have hi := (h.pool.nils i hi).resolve_left fun ⟨e, he, heq⟩ => hni e he heq
      have hj := (h.pool.nils j hj).resolve_left fun ⟨e, he, heq⟩ => hnj e he heq
      exact Option.some.inj (hi.symm.trans hj)
  · obtain ⟨i, hi⟩ := List.mem_iff_getElem?.mp hv
    obtain ⟨a, b, ha, hb, hap, hbp, hab⟩ := h.localVars i v hi
    rw [hactive] at hab
    have hab := hab.resolve_right (by simp)
    have hlen' : fs.pc < 2 ^ 32 := hlen
    have hbn : v.endPc.toNat = b := by
      rw [hb, BitVec.toNat_ofNat, Nat.mod_eq_of_lt (by omega)]
    have han : v.startPc.toNat = a := by
      rw [ha, BitVec.toNat_ofNat, Nat.mod_eq_of_lt (by omega)]
    refine ⟨BitVec.le_def.mpr ?_, ?_⟩
    · rw [han, hbn]
      exact hab
    · rw [hbn]
      exact hbp

theorem finishFunction_spec : Ensures (At 0 ((Shape.body n).add l l.length) outer) (finishFunction (I := I))
    (fun _ s => s.fs.proto.WellFormed ∧ List.Forall₂ (FuncState.Ok 0) outer s.enclosing) fun _ _ => True := by
  refine (Keeps.observe _).step.bind fun line => ((emit_spec (c := False) (Nat.le_succ 0)).mono (fun _ => id) (fun _ _ => id)
    fun _ _ _ => trivial).bind fun _ => .bind (M := fun _ s => At 0 (.body n) outer s ∧
      s.fs.proto.code.getLast? = some (Words.word (.abc .return 0 1 0))) (.change fun s hs => ⟨⟨?_, hs.1.enclosing⟩, ?_⟩)
    fun _ => .change fun s hs => ⟨?_, hs.1.enclosing⟩
  · exact removeLocals_ok hs.1.fs
  · exact (congrArg List.getLast? (removeLocals_code ..)).trans hs.2
  · have hok : FuncState.Ok 0 (.body n) { s.fs with
        proto := { s.fs.proto with upvalueNames := s.fs.upvalues.map (·.name) } } :=
      { hs.1.fs with pool := { hs.1.fs.pool with } }
    exact hok.wellFormed hs.2 rfl

theorem leaveFunction_spec : Ensures (At 0 ((Shape.body n).add l l.length) (sh :: outer)) (leaveFunction (I := I))
    (fun p s => p.WellFormed ∧ At 0 sh outer s) fun _ _ => True := by
  refine finishFunction_spec.bind fun _ => .bind (M := fun p s => p.WellFormed ∧
    List.Forall₂ (FuncState.Ok 0) (sh :: outer) s.enclosing) (.observe fun _ hs => hs) fun p => .bind
    (M := fun r s => p.WellFormed ∧ List.Forall₂ (FuncState.Ok 0) (sh :: outer) r) (.observe fun _ hs => hs) fun r => ?_
  cases r with
  | nil => exact .throw fun _ _ => trivial
  | cons fs enclosing =>
    refine .bind (M := fun _ s => p.WellFormed ∧ At 0 sh outer s) (.change fun s hs => ?_) fun _ => .pure _ fun _ => id
    obtain ⟨hfs, ho⟩ := List.forall₂_cons.mp hs.2
    exact ⟨hs.1, hfs, ho⟩

theorem declareLocal_declares {name : String} : Declares (I := I) 1 1 (do
    newLocal name
    activateLocals 1) := newLocal_declares.bind fun _ => activateLocals_declares

/-- The parameters are declared, and visible. -/
theorem declareParams_spec {params : List String} {hasVarargs needSelf : Bool} :
    Ensures (At 0 {} outer) (declareParams (I := I) params hasVarargs needSelf)
      (fun _ s => ∃ n l, n ≤ l.length ∧ At 0 (({ numParams := n } : Shape).add l l.length) outer s) fun _ _ => True := by
  have hself : Declares (I := I) needSelf.toNat needSelf.toNat (onlyIf needSelf do
      newLocal "self"
      activateLocals 1) := by
    cases needSelf with
    | true => exact declareLocal_declares
    | false => exact (Keeps.pure (c := False) ()).declares
  refine (hself {} outer).bind fun _ => .of_exists fun l₁ => .of_and fun hl₁ => (newLocals_declares params _ outer).bind
    fun _ => .of_exists fun l₂ => .of_and fun hl₂ => (activateLocals_declares _ outer).bind fun _ => .of_exists fun l₃ =>
    .of_and fun hl₃ => ?_
  rw [List.length_eq_zero_iff] at hl₃
  subst hl₃
  have hlen : params.length + needSelf.toNat = (l₁ ++ l₂).length := by rw [List.length_append, hl₁, hl₂, Nat.add_comm]
  have hadd : (((({} : Shape).add l₁ needSelf.toNat).add l₂ 0).add [] params.length) =
      ({} : Shape).add (l₁ ++ l₂) (l₁ ++ l₂).length := by
    rw [← hlen]
    simp [Shape.add, Nat.add_comm]
  rw [hadd]
  refine .bind (M := fun _ => At 0 (({ numParams := params.length + needSelf.toNat } : Shape).add (l₁ ++ l₂)
    (l₁ ++ l₂).length) outer) (.change fun s hs => ⟨?_, hs.enclosing⟩) fun _ => ?_
  · exact { hs.fs with
      numParams := rfl
      params := fun he => absurd he Bool.false_ne_true
      pool := { hs.fs.pool with } }
  · have hflag : ∀ flag : UInt8, Keeps (I := I) 0 False
        (modifyFs fun fs => { fs with proto := { fs.proto with isVararg := flag } }) :=
      fun _ => .modifyFs fun _ _ h => { h with pool := { h.pool with } }
    refine .ite (fun _ => (hflag _).step.post fun _ s hs => ⟨_, _, hlen.le, hs⟩) fun _ => .ite (fun _ => ?_) fun _ =>
      .pure _ fun s hs => ⟨_, _, hlen.le, hs⟩
    refine (hflag _).step.bind fun _ => (declareLocal_declares _ outer).post ?_
    rintro _ s ⟨l, hl, hs⟩
    refine ⟨params.length + needSelf.toNat, l₁ ++ l₂ ++ l, by rw [List.length_append]; omega, ?_⟩
    rw [List.length_append, hl]
    simpa [Shape.add, Nat.add_assoc] using hs

/-- The parameters have their registers. -/
theorem enterParams_spec {params : List String} {hasVarargs needSelf : Bool} :
    Ensures (At 0 {} outer) (enterParams (I := I) params hasVarargs needSelf)
      (fun _ s => ∃ n l, At 0 ((Shape.body n).add l l.length) outer s) fun _ _ => True := by
  refine declareParams_spec.bind fun _ => .of_exists fun n => .of_exists fun l => .of_and fun hn => .post
    (Q := fun _ => At 0 ((Shape.body n).add l l.length) outer) ?_ fun _ _ hs => ⟨n, l, hs⟩
  refine .bind (M := fun m s => At 0 (({ numParams := n } : Shape).add l l.length) outer s ∧ m = l.length)
    (.observe fun s hs => ⟨hs, hs.fs.numActiveVars.trans (Nat.zero_add _)⟩) fun m => .bind
    (M := fun _ => At 0 ((Shape.body n).add l l.length) outer) ?_ fun _ =>
      (Keeps.modifyFs fun _ _ h => by exact h.frame).step
  refine .bind (M := fun _ s => At 0 (({ numParams := n } : Shape).add l l.length) outer s ∧ m = l.length)
    (.observe fun _ hs => hs) fun free => .ite (fun _ => syntaxError_spec.mono (fun _ => id) (fun _ _ => False.elim)
      fun _ _ _ => trivial) fun hroom => .change fun s hs => ⟨?_, hs.1.enclosing⟩
  exact { hs.1.fs with
    stack := ⟨hs.1.fs.stack.1.trans (le_max_left ..), max_le hs.1.fs.stack.2 (Nat.le_of_not_lt hroom)⟩
    params := fun _ => (hn.trans (hs.2 ▸ Nat.le_add_left ..)).trans (le_max_right ..)
    pool := { hs.1.fs.pool with } }

theorem emitClosure_keeps {proto : Draft I} (hp : proto.WellFormed) {upvalues : List UpvalDesc} :
    Keeps 0 False (emitClosure proto upvalues line) := by
  refine (Keeps.getFs _).bind fun _ => .bind (.modifyFs fun sh fs h => ?_) fun _ => (Keeps.slip _).bind fun _ =>
    emitAbx_keeps.bind fun _ => .bind (.forM (fun _ => emitAbc_keeps.bind fun _ => .pure _) _) fun _ => .pure _
  refine { h with protos := fun q hq => ?_, pool := { h.pool with } }
  rcases List.mem_append.mp hq with hq | hq
  · exact h.protos q hq
  · rw [List.mem_singleton.mp hq]
    exact hp

theorem compileFuncbody_keeps {params : List String} {hasVarargs needSelf : Bool} {body : Gen I Unit} {endLine : ℕ}
    (hbody : ∃ k, Declares k k body) : Keeps 0 False (compileFuncbody params hasVarargs body endLine needSelf line) := by
  obtain ⟨k, hbody⟩ := hbody
  suffices h : ∀ sh outer, Ensures (At 0 sh outer) (compileFuncbody params hasVarargs body endLine needSelf line)
      (fun _ => At 0 sh outer) fun _ _ => True from
    fun sh outer => (h sh outer).mono (fun _ => id) (fun _ _ => id) fun _ _ _ => False.elim
  intro sh outer
  refine .bind (M := fun _ => At 0 {} (sh :: outer)) (.change fun s hs => ⟨new_ok _, .cons hs.fs hs.enclosing⟩) fun _ =>
    (Keeps.modifyFs fun _ _ h => by exact { h with pool := { h.pool with } }).step.bind fun _ => enterParams_spec.bind
    fun _ => .of_exists fun n => .of_exists fun l => (hbody _ _).bind fun _ => .of_exists fun l' => .of_and fun hl' => ?_
  subst hl'
  have hadd : ((Shape.body n).add l l.length).add l' l'.length = (Shape.body n).add (l ++ l') (l ++ l').length := by
    simp [Shape.add, Nat.add_assoc]
  rw [hadd]
  refine (Keeps.modifyFs fun _ _ h => by exact { h with pool := { h.pool with } }).step.bind fun _ =>
    (Keeps.setLine _).step.bind fun _ => (Keeps.getFs _).step.bind fun upvalues => leaveFunction_spec.bind fun proto =>
    .of_and fun hp => (emitClosure_keeps hp).step

/-! ### Lists of expressions, and calls -/

theorem compileExprlist_keeps : ∀ {exprs : List (Gen I ExprContext)}, (∀ x ∈ exprs, Keeps 0 False x) →
    Keeps 0 False (compileExprlist line exprs)
  | [], _ => .pure _
  | [expr], h => h expr (List.mem_singleton.mpr rfl)
  | expr :: _ :: _, h => (h expr (List.mem_cons_self ..)).bind fun _ => exp2nextreg_keeps.bind fun _ =>
    compileExprlist_keeps fun x hx => h x (List.mem_cons_of_mem _ hx)

theorem adjustAssign_keeps {nvars nexps : ℕ} {last : ExprContext} :
    Keeps (I := I) 0 False (adjustAssign nvars nexps last line) := by
  unfold adjustAssign
  dsimp only
  split
  · refine .bind (.ite setOneRet_keeps ?_) fun _ => (Keeps.onlyIf reserveRegs_keeps).bind fun _ => .pure _
    exact getInstruction_keeps.bind fun _ => setInstruction_keeps.bind fun _ => .pure _
  · refine .bind (.ite setOneRet_keeps ?_) fun _ => (Keeps.onlyIf reserveRegs_keeps).bind fun _ => .pure _
    exact getInstruction_keeps.bind fun _ => (Keeps.getFs _).bind fun _ => setInstruction_keeps.bind fun _ =>
      reserveRegs_keeps.bind fun _ => .pure _
  · refine .bind (.ite (.pure _) exp2nextreg_keeps) fun _ => .bind (.onlyIf ?_) fun _ => .pure _
    exact (Keeps.getFs _).bind fun _ => reserveRegs_keeps.bind fun _ => emitNil_keeps

theorem emitCall_keeps {func : ExprContext} {base b : ℕ} : Keeps (I := I) 0 False (emitCall func base b line) :=
  emitAbc_keeps.bind fun _ => .bind (.modifyFs fun _ _ h => by exact h.frame) fun _ => .pure _

theorem compileFuncargs_keeps {func : ExprContext} : ∀ {args : List (Gen I ExprContext)}, (∀ x ∈ args, Keeps 0 False x) →
    Keeps 0 False (compileFuncargs func line args)
  | [], _ => (Keeps.getFs _).bind fun _ => emitCall_keeps
  | arg :: _, h => (h arg (List.mem_cons_self ..)).bind fun _ => .ite (setMultret_keeps.bind fun _ => emitCall_keeps)
    (exp2nextreg_keeps.bind fun _ => compileFuncargs_keeps fun x hx => h x (List.mem_cons_of_mem _ hx))

/-! ### Table constructors -/

/-- What the parts of a field are compiled with leaves the scopes as they are. -/
def FieldCode.Ok : FieldCode I → Prop
  | .value v _ | .name _ v => Keeps 0 False v
  | .index k v => Keeps 0 False k ∧ Keeps 0 False v

theorem compileKeyed_keeps {tableReg : ℕ} {key value : Gen I ExprContext} (hk : Keeps 0 False key)
    (hv : Keeps 0 False value) : Keeps 0 False (compileKeyed tableReg key value line) :=
  hk.bind fun _ => exp2rk_keeps.bind fun _ => hv.bind fun _ => exp2rk_keeps.bind fun _ => emitAbc_keeps.bind fun _ =>
    freeExpr_keeps.bind fun _ => freeExpr_keeps

theorem compileField_keeps {tableReg : ℕ} {field : FieldCode I} {isLast : Bool} {n : FieldCounts} (h : field.Ok) :
    Keeps 0 False (compileField tableReg line field isLast n) := by
  cases field with
  | value value multret =>
    refine Keeps.bind h fun _ => .ite (setMultret_keeps.bind fun _ => codeSetlist_keeps.bind fun _ => .pure _) ?_
    exact exp2nextreg_keeps.bind fun _ => .ite (codeSetlist_keeps.bind fun _ => .pure _) (.pure _)
  | name name value =>
    exact (compileKeyed_keeps (stringConstant_keeps.bind fun _ => .pure _) h).bind fun _ => .pure _
  | index key value => exact (compileKeyed_keeps h.1 h.2).bind fun _ => .pure _

theorem compileFields_keeps {tableReg : ℕ} : ∀ {fields : List (FieldCode I)} {n : FieldCounts}, (∀ f ∈ fields, f.Ok) →
    Keeps 0 False (compileFields tableReg line fields n)
  | [], _, _ => .pure _
  | field :: _, _, h => (compileField_keeps (h field (List.mem_cons_self ..))).bind fun _ =>
    compileFields_keeps fun f hf => h f (List.mem_cons_of_mem _ hf)

theorem compileTableCtor_keeps {fields : List (FieldCode I)} (h : ∀ f ∈ fields, f.Ok) :
    Keeps 0 False (compileTableCtor fields line) :=
  emitAbc_keeps.bind fun _ => exp2nextreg_keeps.bind fun _ => (compileFields_keeps h).bind fun _ =>
    (Keeps.onlyIf codeSetlist_keeps).bind fun _ => getInstruction_keeps.bind fun _ =>
    setInstruction_keeps.bind fun _ => .pure _

/-! ### Assignments -/

theorem checkConflicts_keeps : ∀ {targets before : List ExprContext},
    Keeps (I := I) 0 False (checkConflicts line before targets)
  | [], _ => .pure _
  | _ :: _, _ => .ite ((Keeps.getFs _).bind fun _ => emitAbc_keeps.bind fun _ => reserveRegs_keeps.bind fun _ =>
    checkConflicts_keeps) checkConflicts_keeps

theorem compileTargets_keeps : ∀ {targets : List (Gen I ExprContext)}, (∀ x ∈ targets, Keeps 0 False x) →
    Keeps 0 False (compileTargets line targets)
  | [], _ => .pure _
  | target :: _, h => (h target (List.mem_cons_self ..)).bind fun _ => .ite
    ((compileTargets_keeps fun x hx => h x (List.mem_cons_of_mem _ hx)).bind fun _ => .pure _)
    ((Keeps.observe _).bind fun _ => .throw _)

theorem storeValues_keeps {targets : List ExprContext} : Keeps (I := I) 0 False (storeValues line targets) :=
  .forM (fun _ => (Keeps.getFs _).bind fun _ => (Keeps.onlyIf (.slip _)).bind fun _ => storevar_keeps) _

theorem compileAssign_keeps {targets values : List (Gen I ExprContext)} (ht : ∀ x ∈ targets, Keeps 0 False x)
    (hv : ∀ x ∈ values, Keeps 0 False x) : Keeps 0 False (compileAssign targets values line) := by
  refine (compileTargets_keeps ht).bind fun _ => checkConflicts_keeps.bind fun targetExprs =>
    (compileExprlist_keeps hv).bind fun _ => .ite (setOneRet_keeps.bind fun _ => ?_) ?_
  · split
    · exact .throw _
    · exact storevar_keeps.bind fun _ => storeValues_keeps
  · exact adjustAssign_keeps.bind fun _ => .bind (.onlyIf (.modifyFs fun _ _ h => by exact h.frame))
      fun _ => storeValues_keeps

theorem compileLocalDecl_declares {names : List String} {values : List (Gen I ExprContext)}
    (hv : ∀ x ∈ values, Keeps 0 False x) :
    Declares names.length names.length (compileLocalDecl names values line) := by
  have hrest : Declares 0 names.length (do
      let last ← compileExprlist line values
      let _ ← adjustAssign names.length values.length last line
      activateLocals names.length) :=
    (compileExprlist_keeps hv).declares_bind fun _ => adjustAssign_keeps.declares_bind fun _ => activateLocals_declares
  have h := (newLocals_declares names).bind fun _ => hrest
  rwa [Nat.add_zero, Nat.zero_add] at h

/-! ### Blocks and control structures -/

variable {condition : Gen I ExprContext} {body : Gen I Unit} {condLine endLine : ℕ}

theorem compileBlockScoped_keeps (hb : ∃ k, Declares k k body) : Keeps 0 False (compileBlockScoped body) := by
  obtain ⟨k, hb⟩ := hb
  refine Moves.keeps (enterBlock_moves.bind fun _ => hb.moves.bind fun _ => ?_)
  rw [Nat.zero_add]
  exact leaveBlock_moves

theorem compileWhile_keeps (hc : Keeps 0 False condition) (hb : ∃ k, Declares k k body) :
    Keeps 0 False (compileWhile condition condLine body endLine) := by
  obtain ⟨k, hb⟩ := hb
  refine getLabel_keeps.bind fun _ => hc.bind fun _ => compileCondition_keeps.bind fun _ => Moves.keeps
    (enterBlock_moves.bind fun _ => hb.moves.bind fun _ => (Keeps.observe _).moves.bind fun _ =>
    emitJump_keeps.moves.bind fun _ =>
    patchList_keeps.moves.bind fun _ => ?_)
  rw [Nat.zero_add]
  exact leaveBlock_moves.bind fun _ => (patchToHere_keeps.bind fun _ => .setLine _).moves

theorem compileRepeat_keeps (hb : ∃ k, Declares k k body) (hc : Keeps 0 False condition) :
    Keeps 0 False (compileRepeat body condition condLine line) := by
  obtain ⟨k, hb⟩ := hb
  refine getLabel_keeps.bind fun _ => Moves.keeps (enterBlock_moves.bind fun _ => enterBlock_moves.bind fun _ =>
    hb.moves.bind fun _ => hc.moves.bind fun _ => compileCondition_keeps.moves.bind fun condexit =>
    (Keeps.getFs _).moves.bind
    fun blocks => Moves.bind (?_ : Moves _ [(0, 0)] _) fun _ => patchList_keeps.moves.bind fun _ => leaveBlock_moves)
  rw [Nat.zero_add]
  split
  · exact emitAbc_keeps.moves.bind fun _ => emitJump_keeps.moves.bind fun _ => addBreakJump_keeps.moves.bind fun _ =>
      patchToHere_keeps.moves.bind fun _ => leaveBlock_moves.bind fun _ => (emitJump_keeps.bind fun _ => .pure _).moves
  · exact leaveBlock_moves.bind fun _ => (Keeps.pure _).moves

theorem compileElseif_keeps {escape flist : Option ℕ} (hc : Keeps 0 False condition) (hb : ∃ k, Declares k k body) :
    Keeps 0 False (compileElseif condition condLine body escape flist) :=
  (Keeps.observe _).bind fun _ => emitJump_keeps.bind fun _ => concatJumps_keeps.bind fun _ =>
    patchToHere_keeps.bind fun _ =>
    hc.bind fun _ => compileCondition_keeps.bind fun _ => (compileBlockScoped_keeps hb).bind fun _ => .pure _

theorem compileElseifs_keeps : ∀ {conditions : List (Gen I ExprContext × ℕ)} {bodies : List (Gen I Unit)}
    {escape flist : Option ℕ}, (∀ x ∈ conditions, Keeps 0 False x.1) → (∀ x ∈ bodies, ∃ k, Declares k k x) →
    Keeps 0 False (compileElseifs conditions bodies escape flist)
  | [], _, _, _, _, _ => .pure _
  | _ :: _, [], _, _, _, _ => .throw _
  | c :: _, b :: _, _, _, hc, hb => (compileElseif_keeps (hc c (List.mem_cons_self ..)) (hb b (List.mem_cons_self ..))).bind
    fun _ => compileElseifs_keeps (fun x hx => hc x (List.mem_cons_of_mem _ hx)) fun x hx =>
    hb x (List.mem_cons_of_mem _ hx)

theorem compileElseBlock_keeps {elseBody : Option (Gen I Unit)} {escape flist : Option ℕ}
    (h : ∀ x ∈ elseBody, ∃ k, Declares k k x) : Keeps 0 False (compileElseBlock elseBody escape flist) := by
  cases elseBody with
  | none => exact concatJumps_keeps
  | some block => exact (Keeps.observe _).bind fun _ => emitJump_keeps.bind fun _ => concatJumps_keeps.bind fun _ =>
      patchToHere_keeps.bind fun _ => (compileBlockScoped_keeps (h block rfl)).bind fun _ => .pure _

theorem compileIf_keeps {conditions : List (Gen I ExprContext × ℕ)} {bodies : List (Gen I Unit)}
    {elseBody : Option (Gen I Unit)} (hc : ∀ x ∈ conditions, Keeps 0 False x.1) (hb : ∀ x ∈ bodies, ∃ k, Declares k k x)
    (he : ∀ x ∈ elseBody, ∃ k, Declares k k x) : Keeps 0 False (compileIf conditions bodies elseBody endLine) := by
  unfold compileIf
  split
  · refine (hc _ (List.mem_cons_self ..)).bind fun _ => compileCondition_keeps.bind fun _ =>
      (compileBlockScoped_keeps (hb _ (List.mem_cons_self ..))).bind fun _ => (compileElseifs_keeps
      (fun x hx => hc x (List.mem_cons_of_mem _ hx)) fun x hx => hb x (List.mem_cons_of_mem _ hx)).bind fun _ => ?_
    exact (compileElseBlock_keeps he).bind fun _ => patchToHere_keeps.bind fun _ => .setLine _
  · exact .throw _

theorem compileStep_keeps {step : Option (Gen I ExprContext)} (h : ∀ x ∈ step, Keeps 0 False x) :
    Keeps 0 False (compileStep step line) := by
  cases step with
  | some step => exact (h step rfl).bind fun _ => exp2nextreg_keeps.bind fun _ => .pure _
  | none => exact numberConstant_keeps.bind fun _ => (Keeps.getFs _).bind fun _ => emitAbx_keeps.bind fun _ =>
      reserveRegs_keeps

/-- Four local variables are declared for the loop; the last one belongs to the block inside of it. -/
theorem compileNumericFor_keeps {name : String} {start stop : Gen I ExprContext} {step : Option (Gen I ExprContext)}
    (hstart : Keeps 0 False start) (hstop : Keeps 0 False stop) (hstep : ∀ x ∈ step, Keeps 0 False x)
    (hb : ∃ k, Declares k k body) : Keeps 0 False (compileNumericFor name start stop step body line endLine) := by
  obtain ⟨k, hb⟩ := hb
  refine Moves.keeps (enterBlock_moves.bind fun _ => (Keeps.getFs _).moves.bind fun _ =>
    (newLocals_declares _).moves.bind fun _ => hstart.moves.bind fun _ => exp2nextreg_keeps.moves.bind fun _ =>
    hstop.moves.bind fun _ => exp2nextreg_keeps.moves.bind fun _ => (compileStep_keeps hstep).moves.bind fun _ =>
    activateLocals_declares.moves.bind fun _ => emitAsbx_keeps.moves.bind fun _ =>
    (enterBlock_moves_declared (n := 3) (m := 1)).bind fun _ => activateLocals_declares.moves.bind fun _ =>
    reserveRegs_keeps.moves.bind fun _ => hb.moves.bind fun _ => ?_)
  rw [Nat.zero_add]
  exact leaveBlock_moves.bind fun _ => patchToHere_keeps.moves.bind fun _ => emitAsbx_keeps.moves.bind fun _ =>
    patchJump_keeps.moves.bind fun _ => leaveBlock_moves.bind fun _ => (Keeps.setLine _).moves

theorem compileGenericFor_keeps {names : List String} {iterators : List (Gen I ExprContext)} {iterLine : ℕ}
    (hi : ∀ x ∈ iterators, Keeps 0 False x) (hb : ∃ k, Declares k k body) :
    Keeps 0 False (compileGenericFor names iterators body line iterLine endLine) := by
  obtain ⟨k, hb⟩ := hb
  refine Moves.keeps (enterBlock_moves.bind fun _ => (Keeps.getFs _).moves.bind fun _ =>
    (newLocals_declares _).moves.bind fun _ => (newLocals_declares _).moves.bind fun _ =>
    (compileExprlist_keeps hi).moves.bind fun _ => adjustAssign_keeps.moves.bind fun _ =>
    checkStack_keeps.moves.bind fun _ => activateLocals_declares.moves.bind fun _ => emitJump_keeps.moves.bind fun _ =>
    (enterBlock_moves_declared (n := 3) (m := names.length)).bind fun _ => activateLocals_declares.moves.bind fun _ =>
    reserveRegs_keeps.moves.bind fun _ => hb.moves.bind fun _ => ?_)
  rw [Nat.zero_add]
  exact leaveBlock_moves.bind fun _ => patchToHere_keeps.moves.bind fun _ => emitAbc_keeps.moves.bind fun _ =>
    emitJump_keeps.moves.bind fun _ => patchJump_keeps.moves.bind fun _ => leaveBlock_moves.bind fun _ =>
    (Keeps.setLine _).moves

/-! ### Other statements -/

theorem indexByName_keeps {var : ExprContext} {name : String} : Keeps (I := I) 0 False (indexByName var name line) :=
  exp2anyreg_keeps.bind fun _ => stringConstant_keeps.bind fun _ => setIndexed_keeps

theorem indexPath_keeps : ∀ {path : List String} {var : ExprContext}, Keeps (I := I) 0 False (indexPath line path var)
  | [], _ => .pure _
  | _ :: _, _ => indexByName_keeps.bind fun _ => indexPath_keeps

theorem compileFuncDecl_keeps {name : FuncName} {func : Gen I ExprContext} (hf : Keeps 0 False func) :
    Keeps 0 False (compileFuncDecl name func line) := by
  unfold compileFuncDecl
  split
  · exact .throw _
  · exact resolveVar_keeps.bind fun _ => indexPath_keeps.bind fun _ => hf.bind fun _ => storevar_keeps

theorem compileLocalFunc_declares {name : String} {func : Gen I ExprContext} (hf : Keeps 0 False func) :
    Declares 1 1 (compileLocalFunc name func line) := by
  have hrest : Keeps 0 False (do
      let func ← func
      let reg ← getFs (·.numActiveVars - 1)
      let _ ← exp2reg func reg line) := hf.bind fun _ => (Keeps.getFs _).bind fun _ => exp2reg_keeps.bind fun _ => .pure _
  exact newLocal_declares.bind fun _ => activateLocals_declares.bind fun _ => hrest.declares

theorem makeTailCall_keeps {e : ExprContext} : Keeps (I := I) 0 False (makeTailCall e) :=
  getInstruction_keeps.bind fun _ => isOp_keeps.bind fun _ => .ite setInstruction_keeps (.pure _)

theorem compileReturnValues_keeps {base nret : ℕ} : ∀ {values : List (Gen I ExprContext)}, (∀ x ∈ values, Keeps 0 False x) →
    Keeps 0 False (compileReturnValues base nret line values)
  | [], _ => emitAbc_keeps.bind fun _ => .pure _
  | value :: _, h => (h value (List.mem_cons_self ..)).bind fun _ => .ite
    (setMultret_keeps.bind fun _ => (Keeps.getFs _).bind fun _ => emitAbc_keeps.bind fun _ => .pure _)
    (exp2nextreg_keeps.bind fun _ => compileReturnValues_keeps fun x hx => h x (List.mem_cons_of_mem _ hx))

theorem compileReturn_keeps {values : List (Gen I ExprContext)} (h : ∀ x ∈ values, Keeps 0 False x) :
    Keeps 0 False (compileReturn values line) := by
  unfold compileReturn
  split
  · exact emitAbc_keeps.bind fun _ => .pure _
  next value =>
    refine (h value (List.mem_singleton.mpr rfl)).bind fun _ => .ite ((Keeps.onlyIf makeTailCall_keeps).bind fun _ => ?_)
      (exp2anyreg_keeps.bind fun _ => emitAbc_keeps.bind fun _ => .pure _)
    exact setMultret_keeps.bind fun _ => (Keeps.getFs _).bind fun _ => emitAbc_keeps.bind fun _ => .pure _
  · exact (Keeps.getFs _).bind fun _ => compileReturnValues_keeps h

theorem compileBreak_keeps : Keeps (I := I) 0 False (compileBreak line) :=
  (Keeps.getFs _).bind fun _ => (Keeps.onlyIf (emitAbc_keeps.bind fun _ => .pure _)).bind fun _ =>
    emitJump_keeps.bind fun _ =>
    addBreakJump_keeps

theorem compileExprStat_keeps {expr : Gen I ExprContext} (h : Keeps 0 False expr) : Keeps 0 False (compileExprStat expr) :=
  h.bind fun _ => .ite (getInstruction_keeps.bind fun _ => setInstruction_keeps) (.pure _)

/-! ### Syntax trees -/

section

variable [Arithmetic]

mutual

theorem compileExpr_keeps : ∀ e : Expr, Keeps (I := I) 0 False (compileExpr e)
  | .nil _ | .true _ | .false _ | .number _ _ => (Keeps.setLine _).bind fun _ => .pure _
  | .str _ _ => (Keeps.setLine _).bind fun _ => stringConstant_keeps.bind fun _ => .pure _
  | .varArg _ => (Keeps.setLine _).bind fun _ => .bind (.modifyFs fun _ _ h => by exact { h with pool := { h.pool with } })
    fun _ => emitAbc_keeps.bind fun _ => .pure _
  | .name _ _ => (Keeps.setLine _).bind fun _ => resolveVar_keeps
  | .binOp _ left right _ => (Keeps.setLine _).bind fun _ => (compileExpr_keeps left).bind fun _ =>
    infixExpr_keeps.bind fun _ =>
    (compileExpr_keeps right).bind fun _ => postfixExpr_keeps
  | .unOp _ operand _ => (Keeps.setLine _).bind fun _ => (compileExpr_keeps operand).bind fun _ => prefixExpr_keeps
  | .index table key _ => (Keeps.setLine _).bind fun _ => (compileExpr_keeps table).bind fun _ =>
    exp2anyreg_keeps.bind fun _ =>
    (compileExpr_keeps key).bind fun _ => setIndexed_keeps
  | .field table _ _ => (Keeps.setLine _).bind fun _ => (compileExpr_keeps table).bind fun _ => indexByName_keeps
  | .methodCall table _ args _ => (Keeps.setLine _).bind fun _ => (compileExpr_keeps table).bind fun _ =>
    exp2anyreg_keeps.bind fun _ => stringConstant_keeps.bind fun _ => codeSelf_keeps.bind fun _ =>
    compileFuncargs_keeps (compileExprs_keeps args)
  | .call func args _ => (Keeps.setLine _).bind fun _ => (compileExpr_keeps func).bind fun _ =>
    exp2nextreg_keeps.bind fun _ =>
    compileFuncargs_keeps (compileExprs_keeps args)
  | .funcDef body _ => (Keeps.setLine _).bind fun _ => compileBody_keeps body
  | .tableCtor fields _ => (Keeps.setLine _).bind fun _ => compileTableCtor_keeps (compileTableFields_ok fields)
  | .paren inner _ => (Keeps.setLine _).bind fun _ => (compileExpr_keeps inner).bind fun _ => dischargeVars_keeps

theorem compileExprs_keeps : ∀ es : List Expr, ∀ x ∈ compileExprs (I := I) es, Keeps 0 False x
  | [] => by simp [compileExprs]
  | e :: es => by
    rw [compileExprs, List.forall_mem_cons]
    exact ⟨compileExpr_keeps e, compileExprs_keeps es⟩

theorem compileConditions_keeps : ∀ es : List Expr, ∀ x ∈ compileConditions (I := I) es, Keeps 0 False x.1
  | [] => by simp [compileConditions]
  | e :: es => by
    rw [compileConditions, List.forall_mem_cons]
    exact ⟨compileExpr_keeps e, compileConditions_keeps es⟩

theorem compileOption_keeps : ∀ e : Option Expr, ∀ x ∈ compileOption (I := I) e, Keeps 0 False x
  | none => by simp [compileOption]
  | some e => by
    rintro _ ⟨⟩
    exact compileExpr_keeps e

theorem compileTableField_ok : ∀ f : Compiler.TableField, (compileTableField (I := I) f).Ok
  | .indexField key value _ => ⟨compileExpr_keeps key, compileExpr_keeps value⟩
  | .nameField _ value _ => compileExpr_keeps value
  | .valueField value _ => compileExpr_keeps value

theorem compileTableFields_ok : ∀ fs : List Compiler.TableField, ∀ f ∈ compileTableFields (I := I) fs, f.Ok
  | [] => by simp [compileTableFields]
  | f :: fs => by
    rw [compileTableFields, List.forall_mem_cons]
    exact ⟨compileTableField_ok f, compileTableFields_ok fs⟩

theorem compileBody_keeps : ∀ (body : FuncBody) {needSelf : Bool} {line : ℕ},
    Keeps (I := I) 0 False (compileBody body needSelf line)
  | ⟨_, _, body, _, _⟩, _, _ => compileFuncbody_keeps (compileBlock_declares body)

theorem compileStat_declares : ∀ stat : Stat, ∃ k, Declares (I := I) k k (compileStat stat)
  | .assign targets values _ => ⟨0, ((Keeps.setLine _).bind fun _ => compileAssign_keeps (compileExprs_keeps targets)
    (compileExprs_keeps values)).declares⟩
  | .localDecl _ values _ => ⟨_, (Keeps.setLine _).declares_bind fun _ =>
      compileLocalDecl_declares (compileExprs_keeps values)⟩
  | .do body _ _ => ⟨0, ((Keeps.setLine _).bind fun _ => (compileBlockScoped_keeps (compileBlock_declares body)).bind fun _ =>
    .setLine _).declares⟩
  | .while condition body _ _ => ⟨0, ((Keeps.setLine _).bind fun _ => compileWhile_keeps (compileExpr_keeps condition)
    (compileBlock_declares body)).declares⟩
  | .repeat body condition _ => ⟨0, ((Keeps.setLine _).bind fun _ => compileRepeat_keeps (compileBlock_declares body)
    (compileExpr_keeps condition)).declares⟩
  | .if conditions bodies elseBody _ _ => ⟨0, ((Keeps.setLine _).bind fun _ => compileIf_keeps
    (compileConditions_keeps conditions) (compileBlocks_declares bodies) (compileElse_declares elseBody)).declares⟩
  | .numericFor _ start stop step body _ _ => ⟨0, ((Keeps.setLine _).bind fun _ => compileNumericFor_keeps
    (compileExpr_keeps start) (compileExpr_keeps stop) (compileOption_keeps step) (compileBlock_declares body)).declares⟩
  | .genericFor _ iterators body _ _ _ => ⟨0, ((Keeps.setLine _).bind fun _ => compileGenericFor_keeps
    (compileExprs_keeps iterators) (compileBlock_declares body)).declares⟩
  | .funcDecl _ body _ => ⟨0, ((Keeps.setLine _).bind fun _ => compileFuncDecl_keeps (compileBody_keeps body)).declares⟩
  | .localFunc _ body _ => ⟨1, (Keeps.setLine _).declares_bind fun _ =>
      compileLocalFunc_declares (compileBody_keeps body)⟩
  | .return values _ => ⟨0, ((Keeps.setLine _).bind fun _ => compileReturn_keeps (compileExprs_keeps values)).declares⟩
  | .break _ => ⟨0, ((Keeps.setLine _).bind fun _ => compileBreak_keeps).declares⟩
  | .exprStat expr _ => ⟨0, ((Keeps.setLine _).bind fun _ => compileExprStat_keeps (compileExpr_keeps expr)).declares⟩

theorem compileBlock_declares : ∀ stats : List Stat, ∃ k, Declares (I := I) k k (compileBlock stats)
  | [] => ⟨0, (Keeps.pure (c := False) ()).declares⟩
  | stat :: stats => by
    obtain ⟨j, hj⟩ := compileStat_declares stat
    obtain ⟨k, hk⟩ := compileBlock_declares stats
    refine ⟨j + k, hj.bind fun _ => Keeps.declares_bind (.modifyFs fun _ _ h => ?_) fun _ => hk⟩
    exact h.frame

theorem compileBlocks_declares : ∀ bodies : List (List Stat), ∀ x ∈ compileBlocks (I := I) bodies, ∃ k, Declares k k x
  | [] => by simp [compileBlocks]
  | body :: bodies => by
    rw [compileBlocks, List.forall_mem_cons]
    exact ⟨compileBlock_declares body, compileBlocks_declares bodies⟩

theorem compileElse_declares : ∀ body : Option (List Stat), ∀ x ∈ compileElse (I := I) body, ∃ k, Declares k k x
  | none => by simp [compileElse]
  | some body => by
    rintro _ ⟨⟩
    exact compileBlock_declares body

end

theorem compileMain_spec (block : Block) : Ensures (At 0 {} []) (compileMain (I := I) block) (fun p _ => p.WellFormed)
    fun _ _ => True := by
  obtain ⟨k, hk⟩ := compileBlock_declares (I := I) block
  refine .bind (M := fun _ => At 0 (.body 0) []) (.change fun s hs => ⟨?_, hs.enclosing⟩) fun _ => (hk _ _).bind fun _ =>
    .of_exists fun l => .of_and fun hl => ?_
  · exact { hs.fs with
      numParams := rfl
      params := fun _ => Nat.zero_le _
      pool := { hs.fs.pool with } }
  · subst hl
    exact finishFunction_spec.bind fun _ => .observe fun _ hs => hs.1

end

end

/-- In every chunk that compiles, all prototypes are well formed. -/
theorem compile_wellFormed {I : Type} [Words I] [Arithmetic] {name : String} {block : Block} {p : Draft I}
    (h : compile I name block = .ok p) : p.WellFormed := by
  rw [compile] at h
  cases hrun : compileMain block (Compiler.new (I := I) name) with
  | error e s =>
    rw [hrun] at h
    cases h
  | ok q s =>
    rw [hrun] at h
    cases h
    exact (compileMain_spec block _ ⟨new_ok name, .nil⟩).1 _ _ hrun

/-- A chunk that returns a function, which captures a local variable of it. -/
def closureChunk : Block :=
  [.localDecl ["x"] [] ⟨1⟩, .return [.funcDef ⟨["y"], true, [.return [.name "x" ⟨2⟩] ⟨2⟩], ⟨2⟩, 3⟩ ⟨2⟩] ⟨2⟩]

/-- There is nothing to fold in the chunk. -/
abbrev noArithmetic : Arithmetic :=
  ⟨fun a _ => a, fun a _ => a, fun a _ => a, fun a _ => a, fun a _ => a, id, id, fun a _ _ => a⟩

theorem compile_wellFormed_closure : ∃ p : Draft Instruction,
    @compile Instruction _ noArithmetic "chunk" closureChunk = .ok p ∧ p.protos.length = 1 ∧ p.WellFormed := by
  have hrun : (@compile Instruction _ noArithmetic "chunk" closureChunk).toOption.map (·.protos.length) = some 1 := by
    decide +kernel
  obtain ⟨p, hp, hone⟩ := Option.map_eq_some_iff.mp hrun
  have hok : @compile Instruction _ noArithmetic "chunk" closureChunk = .ok p := by
    cases h : @compile Instruction _ noArithmetic "chunk" closureChunk with
    | error e =>
      rw [h] at hp
      cases hp
    | ok q =>
      rw [h] at hp
      exact congrArg Except.ok (Option.some.inj hp)
  exact ⟨p, hok, hone, @compile_wellFormed _ _ noArithmetic _ _ _ hok⟩

end Rilua.Codegen
