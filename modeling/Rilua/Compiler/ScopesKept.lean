import Rilua.Compiler.WellFormed

/-! The scopes of the functions under compilation: names are resolved, local variables are declared, become visible and go
    out of scope again at the end of their block. Operators leave all that as it is. -/

namespace Rilua.Codegen

open Lib Vm Rilua.Compiler

/-- More local variables have been declared, and `k` have become visible. -/
def Shape.add (sh : Shape) (l : List ℕ) (k : ℕ) : Shape :=
  { sh with numActiveVars := sh.numActiveVars + k, activeVars := sh.activeVars ++ l }

/-- A block has been entered. -/
def Shape.enter (sh : Shape) : Shape := { sh with levels := sh.numActiveVars :: sh.levels }

theorem levels_modify {g : BlockContext → BlockContext} (h : ∀ b, (g b).numActiveVars = b.numActiveVars)
    (l : List BlockContext) (i : ℕ) : (l.modify i g).map (·.numActiveVars) = l.map (·.numActiveVars) := by
  refine List.ext_getElem? fun j => ?_
  rw [List.getElem?_map, List.getElem?_map, List.getElem?_modify]
  cases l[j]? with
  | none => rfl
  | some a => by_cases hij : i = j <;> simp [hij, h]

section

variable {I : Type} [Words I] {α β : Type} {d : ℕ} {c : Prop} {sh t : Shape} {outer : List Shape} {fs : FuncState I}
  {m n j k : ℕ} {l : List ℕ} {bs bs' bs'' : List (ℕ × ℕ)}

/-! ### Names -/

theorem markUpval_ok (h : fs.Ok d sh) (level : ℕ) : (fs.markUpval level).Ok d sh := by
  refine { h with levels := .trans ?_ h.levels, pool := { h.pool with } }
  exact levels_modify (by simp) _ _

theorem addUpvalue_ok (h : fs.Ok d sh) {name : String} {inStack : Bool} {index i : ℕ} {fs' : FuncState I}
    (hadd : fs.addUpvalue name inStack index = some (i, fs')) : fs'.Ok d sh := by
  rw [FuncState.addUpvalue] at hadd
  split at hadd
  · cases hadd
    exact h
  · split at hadd
    · cases hadd
    next hroom =>
      cases hadd
      exact { h with upvalues := ⟨rfl, by simp; omega⟩, pool := { h.pool with } }

theorem resolveVarAux_ok {tooMany : Abort} {name : String} {r : Option ℕ} : ∀ {enclosing enclosing' : List (FuncState I)}
    {fs fs' : FuncState I} {d : ℕ} {sh : Shape} {outer : List Shape}, fs.Ok d sh →
    List.Forall₂ (FuncState.Ok 0) outer enclosing → resolveVarAux tooMany name fs enclosing = .ok (r, fs', enclosing') →
    fs'.Ok d sh ∧ List.Forall₂ (FuncState.Ok 0) outer enclosing'
  | [], _, fs, fs', d, sh, outer, h, ho, heq => by
    cases heq
    exact ⟨h, ho⟩
  | parent :: rest, _, fs, fs', d, sh, _, h, .cons hparent ho, heq => by
    rw [resolveVarAux] at heq
    dsimp only at heq
    split at heq
    · cases heq
    · split at heq
      next hadd =>
        cases heq
        exact ⟨addUpvalue_ok h hadd, .cons (markUpval_ok hparent _) ho⟩
      · cases heq
    · split at heq
      · split at heq
        next hadd =>
          cases heq
          exact ⟨addUpvalue_ok h hadd, .cons hparent ho⟩
        · cases heq
      · cases hrec : resolveVarAux tooMany name parent rest with
        | error e =>
          rw [hrec] at heq
          cases heq
        | ok res =>
          obtain ⟨idx, parent', rest'⟩ := res
          obtain ⟨hparent', ho'⟩ := resolveVarAux_ok hparent ho hrec
          rw [hrec] at heq
          cases idx with
          | none =>
            cases heq
            exact ⟨h, .cons hparent' ho'⟩
          | some idx =>
            simp only [bind, Except.bind] at heq
            split at heq
            next hadd =>
              cases heq
              exact ⟨addUpvalue_ok h hadd, .cons hparent' ho'⟩
            · cases heq

theorem resolveVar_keeps {name : String} : Keeps (I := I) d c (resolveVar name) := by
  refine (Keeps.getFs _).bind fun r => (Keeps.orPanic r).bind fun reg => ?_
  cases reg with
  | some reg => exact .pure _
  | none =>
    refine (Keeps.getFs _).bind fun uv => ?_
    cases uv with
    | some idx => exact .pure _
    | none =>
      refine (Keeps.observe _).bind fun src => (Keeps.observe _).bind fun line => fun sh outer => .bind
        (M := fun r s => At d sh outer s ∧ ∀ idx fs enclosing, r = .ok (idx, fs, enclosing) →
          fs.Ok d sh ∧ List.Forall₂ (FuncState.Ok 0) outer enclosing)
        (.observe fun s hs => ⟨hs, fun _ _ _ heq => resolveVarAux_ok hs.fs hs.enclosing heq⟩) fun r => ?_
      cases r with
      | error e => exact .throw fun _ hs _ _ => hs.1
      | ok res =>
        obtain ⟨idx, fs, enclosing⟩ := res
        refine .bind (M := fun _ => At d sh outer) (.change fun s hs => ?_) fun _ => ?_
        · exact ⟨(hs.2 _ _ _ rfl).1, (hs.2 _ _ _ rfl).2⟩
        · cases idx with
          | some idx => exact Keeps.pure _ sh outer
          | none => exact (stringConstant_keeps.bind fun _ => .pure _) sh outer

/-! ### Local variables -/

/-- The computation declares `m` local variables and makes `k` visible. -/
def Declares (m k : ℕ) (x : Gen I α) : Prop :=
  ∀ sh outer, Ensures (At 0 sh outer) x (fun _ s => ∃ l, l.length = m ∧ At 0 (sh.add l k) outer s) fun _ _ => True

theorem Keeps.declares {x : Gen I α} (hx : Keeps 0 c x) : Declares 0 0 x := fun sh outer =>
  (hx sh outer).mono (fun _ => id) (fun _ s hs => ⟨[], rfl, by rw [Shape.add, List.append_nil]; exact hs⟩) fun _ _ _ => trivial

/-- Nothing is said about errors. -/
theorem Keeps.step {x : Gen I α} (hx : Keeps d False x) :
    Ensures (At d sh outer) x (fun _ => At d sh outer) fun _ _ => True :=
  (hx sh outer).mono (fun _ => id) (fun _ _ => id) fun _ _ _ => trivial

theorem Keeps.declares_bind {x : Gen I β} {f : β → Gen I α} (hx : Keeps 0 False x) (hf : ∀ b, Declares m k (f b)) :
    Declares m k (x >>= f) := fun sh outer => hx.step.bind fun b => hf b sh outer

theorem Declares.bind {x : Gen I β} {f : β → Gen I α} (hx : Declares m k x) (hf : ∀ b, Declares n j (f b)) :
    Declares (m + n) (k + j) (x >>= f) := fun sh outer =>
  (hx sh outer).bind fun b s ⟨l, hl, hs⟩ => ((hf b (sh.add l k) outer).post fun a s ⟨l', hl', hs⟩ =>
    ⟨l ++ l', by simp [hl, hl'], by simpa [Shape.add, Nat.add_assoc] using hs⟩) s hs

theorem newLocal_declares {name : String} : Declares (I := I) 1 0 (newLocal name) := by
  refine (Keeps.getFs _).declares_bind fun line => (Keeps.getFs _).declares_bind fun count => fun sh outer =>
    .ite (fun _ => syntaxError_spec.mono (fun _ => id) (fun _ _ => False.elim) fun _ _ _ => trivial) fun _ => ?_
  refine (Keeps.getFs _).step.bind fun idx => (Keeps.slip _).step.bind fun _ => .change fun s hs => ?_
  refine ⟨[Words.narrow I idx], rfl, ?_, hs.enclosing⟩
  exact { hs.fs with
    activeVars := congrArg (· ++ _) hs.fs.activeVars
    pool := { hs.fs.pool with }
    localVars := fun i v hv => by
      rcases getElem?_concat_eq_some.mp hv with hv | ⟨-, rfl⟩
      · exact (hs.fs.localVars i v hv).mono le_rfl (List.mem_append_left _)
      · exact ⟨0, 0, rfl, rfl, Nat.zero_le _, Nat.zero_le _, .inl le_rfl⟩ }

theorem newLocals_declares : ∀ names : List String, Declares (I := I) names.length 0 (names.forM newLocal)
  | [] => (Keeps.pure (c := False) ()).declares
  | name :: names => by
    rw [List.length_cons, Nat.add_comm]
    exact newLocal_declares.bind fun _ => newLocals_declares names

theorem getElem?_startVars {pc : ℕ} : ∀ {idxs : List ℕ} {vars : List LocalVar} {i : ℕ} {v : LocalVar},
    (startVars pc vars idxs)[i]? = some v → ∃ w, vars[i]? = some w ∧ v.endPc = w.endPc ∧
      (v.startPc = w.startPc ∨ v.startPc = BitVec.ofNat 32 pc ∧ i ∈ idxs)
  | [], _, _, v, h => ⟨v, h, rfl, .inl rfl⟩
  | idx :: idxs, vars, i, v, h => by
    have h : (startVars pc (vars.modify idx ({ · with startPc := BitVec.ofNat 32 pc })) idxs)[i]? = some v := h
    obtain ⟨u, hu, hend, hstart⟩ := getElem?_startVars h
    rw [List.getElem?_modify] at hu
    obtain ⟨w, hw, rfl⟩ := Option.map_eq_some_iff.mp hu
    refine ⟨w, hw, ?_⟩
    by_cases hi : idx = i
    · subst hi
      rw [if_pos rfl] at hend hstart
      exact ⟨hend, .inr ⟨hstart.elim id And.left, List.mem_cons_self ..⟩⟩
    · rw [if_neg hi] at hend hstart
      exact ⟨hend, hstart.imp_right fun h => ⟨h.1, List.mem_cons_of_mem _ h.2⟩⟩

theorem activateLocals_declares : Declares (I := I) 0 k (activateLocals k) := by
  refine (Keeps.getFs _).declares_bind fun count => fun sh outer =>
    .ite (fun _ => .throw fun _ _ => trivial) fun _ => .change fun s hs => ⟨[], rfl, ?_, hs.enclosing⟩
  exact { hs.fs with
    numActiveVars := congrArg (· + k) hs.fs.numActiveVars
    activeVars := hs.fs.activeVars.trans (List.append_nil _).symm
    pool := { hs.fs.pool with }
    localVars := fun i v hv => by
      obtain ⟨w, hw, hend, hstart⟩ := getElem?_startVars hv
      obtain ⟨a, b, ha, hb, hap, hbp, hab⟩ := hs.fs.localVars i w hw
      rcases hstart with hstart | ⟨hstart, hi⟩
      · exact ⟨a, b, hstart.trans ha, hend.trans hb, hap, hbp, hab⟩
      · exact ⟨s.fs.pc, b, hstart, hend.trans hb, le_rfl, hbp, .inr (List.mem_of_mem_drop hi)⟩ }

/-- The newest local variable goes out of scope. -/
theorem removeLocal_ok {i : ℕ} (h : fs.Ok 0 (sh.add [i] 1)) : fs.removeLocal.Ok 0 sh := by
  have hactive : fs.activeVars = sh.activeVars ++ [i] := h.activeVars
  have hlast : fs.activeVars.getLast? = some i := by rw [hactive, List.getLast?_concat]
  have hnum : fs.numActiveVars = sh.numActiveVars + 1 := h.numActiveVars
  have heq : fs.removeLocal = { fs with
      numActiveVars := sh.numActiveVars
      activeVars := sh.activeVars
      proto := { fs.proto with
        localVars := fs.proto.localVars.modify i ({ · with endPc := BitVec.ofNat 32 fs.pc }) } } := by
    rw [FuncState.removeLocal, hlast, hactive, hnum, List.dropLast_concat]
    rfl
  rw [heq]
  exact { h with
    numActiveVars := rfl
    activeVars := rfl
    pool := { h.pool with }
    localVars := fun j v hv => by
      rw [List.getElem?_modify] at hv
      obtain ⟨w, hw, rfl⟩ := Option.map_eq_some_iff.mp hv
      obtain ⟨a, b, ha, hb, hap, hbp, hab⟩ := h.localVars j w hw
      by_cases hj : i = j
      · rw [if_pos hj]
        exact ⟨a, fs.pc, ha, rfl, hap, le_rfl, .inl hap⟩
      · rw [if_neg hj]
        refine ⟨a, b, ha, hb, hap, hbp, hab.imp_right fun hmem => ?_⟩
        rw [hactive] at hmem
        exact (List.mem_append.mp hmem).resolve_right fun h => hj (List.mem_singleton.mp h).symm }

theorem removeLocals_ok (h : fs.Ok 0 (sh.add l l.length)) : (fs.removeLocals sh.numActiveVars).Ok 0 sh := by
  have hnum : fs.numActiveVars - sh.numActiveVars = l.length := by
    rw [h.numActiveVars]
    exact Nat.add_sub_cancel_left ..
  rw [FuncState.removeLocals, hnum]
  clear hnum
  induction l using List.reverseRecOn generalizing fs with
  | nil =>
    rw [Shape.add, List.append_nil] at h
    exact h
  | append_singleton l i ih =>
    rw [List.length_append, List.length_singleton, Function.iterate_succ_apply]
    refine ih (removeLocal_ok (i := i) ?_)
    simpa [Shape.add, Nat.add_assoc] using h

/-! ### Blocks -/

/-- The shapes of a function inside of open blocks, the innermost one first. In each block `n` local variables have been
    declared, and `k` of them are visible. -/
def Within (sh : Shape) : List (ℕ × ℕ) → Shape → Prop
  | [], t => t = sh
  | (n, k) :: bs, t => ∃ u l, Within sh bs u ∧ l.length = n ∧ t = u.enter.add l k

/-- The computation goes from the open blocks `bs` to `bs'`. -/
def Moves (bs bs' : List (ℕ × ℕ)) (x : Gen I α) : Prop :=
  ∀ sh outer t, Within sh bs t →
    Ensures (At 0 t outer) x (fun _ s => ∃ t', Within sh bs' t' ∧ At 0 t' outer s) fun _ _ => True

theorem Moves.bind {x : Gen I β} {f : β → Gen I α} (hx : Moves bs bs' x) (hf : ∀ b, Moves bs' bs'' (f b)) :
    Moves bs bs'' (x >>= f) := fun sh outer t ht =>
  (hx sh outer t ht).bind fun b s ⟨t', ht', hs⟩ => hf b sh outer t' ht' s hs

theorem Keeps.moves {x : Gen I α} (hx : Keeps 0 False x) : Moves bs bs x := fun _ _ t ht =>
  hx.step.post fun _ _ hs => ⟨t, ht, hs⟩

theorem Moves.keeps {x : Gen I α} (hx : Moves [] [] x) : Keeps 0 False x := fun sh outer =>
  (hx sh outer sh rfl).mono (fun _ => id) (fun _ s ⟨t, ht, hs⟩ => by
    obtain rfl : t = sh := ht
    exact hs) fun _ _ _ => False.elim

theorem Declares.moves {x : Gen I α} (hx : Declares m j x) : Moves ((n, k) :: bs) ((n + m, k + j) :: bs) x := by
  rintro sh outer _ ⟨u, l, hu, hl, rfl⟩
  refine (hx _ outer).post fun _ s ⟨l', hl', hs⟩ => ⟨_, ⟨u, l ++ l', hu, by simp [hl, hl'], rfl⟩, ?_⟩
  simpa [Shape.add, Nat.add_assoc] using hs

theorem enterBlock_moves {b : Bool} : Moves (I := I) bs ((0, 0) :: bs) (enterBlock b) := by
  refine fun sh outer t ht => .change fun s hs => ⟨_, ⟨t, [], ht, rfl, rfl⟩, ?_, hs.enclosing⟩
  rw [Shape.add, List.append_nil]
  exact { hs.fs with
    levels := congrArg₂ List.cons hs.fs.numActiveVars hs.fs.levels
    pool := { hs.fs.pool with } }

/-- Local variables that are declared but not visible yet may belong to the block that is entered. -/
theorem enterBlock_moves_declared {b : Bool} : Moves (I := I) ((n + m, k) :: bs) ((m, 0) :: (n, k) :: bs) (enterBlock b) := by
  rintro sh outer _ ⟨u, l, hu, hl, rfl⟩
  have hmoves : Moves (I := I) [] [(0, 0)] (enterBlock b) := enterBlock_moves
  refine (hmoves _ outer _ rfl).post ?_
  rintro _ s ⟨_, ⟨_, l', rfl, hl', rfl⟩, hs⟩
  rw [List.length_eq_zero_iff] at hl'
  subst hl'
  refine ⟨_, ⟨u.enter.add (l.take n) k, l.drop n, ⟨u, l.take n, hu, by simp [hl], rfl⟩, by simp [hl], rfl⟩, ?_⟩
  simpa [Shape.add, Shape.enter] using hs

theorem leaveBlock_moves : Moves (I := I) ((n, n) :: bs) bs leaveBlock := by
  rintro sh outer _ ⟨u, l, hu, hl, rfl⟩
  subst hl
  refine Ensures.post (Q := fun _ => At 0 u outer) ?_ fun _ s hs => ⟨u, hu, hs⟩
  refine .bind (M := fun bs s => At 0 (u.enter.add l l.length) outer s ∧ s.fs.blocks = bs) (.observe fun s hs => ⟨hs, rfl⟩)
    fun blocks => ?_
  cases blocks with
  | nil => exact .of_pre (fun s hs => by simpa [hs.2, Shape.add, Shape.enter] using hs.1.fs.levels) False.elim
  | cons block blocks =>
    refine .of_pre (p := block.numActiveVars = u.numActiveVars ∧ blocks.map (·.numActiveVars) = u.levels)
      (fun s hs => by simpa [hs.2, Shape.add, Shape.enter] using hs.1.fs.levels) fun ⟨hlevel, hlevels⟩ => ?_
    dsimp only
    rw [hlevel]
    refine .bind (M := fun _ => At 0 (u.add l l.length) outer) (.change fun s hs => ⟨?_, hs.1.enclosing⟩) fun _ =>
      .bind (M := fun _ => At 0 u outer) (.change fun s hs => ⟨removeLocals_ok hs.fs, hs.enclosing⟩) fun _ => ?_
    · exact { hs.1.fs with
        levels := hlevels
        pool := { hs.1.fs.pool with } }
    · refine Keeps.step (.bind (.modifyFs fun _ _ h => h.frame) fun _ => .bind (.onlyIf ?_)
        fun _ => .onlyIf ((Keeps.getFs _).bind fun _ => patchList_keeps))
      exact (Keeps.observe _).bind fun _ => emitAbc_keeps.bind fun _ => .pure _

theorem appendBreak_keeps {list jump : ℕ} : Keeps (I := I) d c (appendBreak list jump) := by
  refine longestWalk_keeps.bind fun n => .repeatFor (fun list => getInstruction_keeps.bind fun _ => .ite ?_ ?_) n list
  · exact (Keeps.slip _).bind fun _ => setInstruction_keeps.bind fun _ => .pure _
  · exact .ite (.throw _) (.pure _)

theorem addBreakJump_keeps {jump : ℕ} : Keeps (I := I) d c (addBreakJump jump) := by
  refine (Keeps.getFs _).bind fun blocks => ?_
  dsimp only
  split
  · exact .syntaxError _
  · split
    · refine .modifyFs fun _ _ h => { h with levels := .trans ?_ h.levels, pool := { h.pool with } }
      exact levels_modify (by simp) _ _
    · exact appendBreak_keeps

/-! ### Expressions under way -/

theorem setOneRet_keeps {e : ExprContext} : Keeps (I := I) d c (setOneRet e) := by
  unfold setOneRet
  split
  · exact getInstruction_keeps.bind fun _ => setInstruction_keeps.bind fun _ => .pure _
  · exact getInstruction_keeps.bind fun _ => setInstruction_keeps.bind fun _ => .pure _
  · exact .pure _

theorem dischargeVars_keeps {e : ExprContext} {line : ℕ} : Keeps (I := I) d c (dischargeVars e line) := by
  unfold dischargeVars
  split
  · exact .pure _
  · exact emitAbc_keeps.bind fun _ => .pure _
  · exact emitAbx_keeps.bind fun _ => .pure _
  · exact freeReg_keeps.bind fun _ => freeReg_keeps.bind fun _ => emitAbc_keeps.bind fun _ => .pure _
  · exact setOneRet_keeps
  · exact setOneRet_keeps
  · exact .pure _

theorem freeExpr_keeps {e : ExprContext} : Keeps (I := I) d c (freeExpr e) := by
  unfold freeExpr
  split
  · exact freeReg_keeps
  · exact .pure _

theorem numeralConstant_keeps {n : F64} : Keeps (I := I) d c (numeralConstant n) := by
  refine (Keeps.getFs _).bind fun _ => (Keeps.getFs _).bind fun _ => .ite ((Keeps.slip _).bind fun _ => ?_)
    numberConstant_keeps
  split
  · exact .pure _
  · exact numberConstant_keeps

theorem discharge2reg_keeps {e : ExprContext} {reg line : ℕ} : Keeps (I := I) d c (discharge2reg e reg line) := by
  refine dischargeVars_keeps.bind fun e => ?_
  dsimp only
  split
  · exact emitNil_keeps.bind fun _ => .pure _
  · exact emitAbc_keeps.bind fun _ => .pure _
  · exact emitAbc_keeps.bind fun _ => .pure _
  · exact emitAbx_keeps.bind fun _ => .pure _
  · exact numeralConstant_keeps.bind fun _ => emitAbx_keeps.bind fun _ => .pure _
  · exact getInstruction_keeps.bind fun _ => setInstruction_keeps.bind fun _ => .pure _
  · exact (Keeps.onlyIf (emitAbc_keeps.bind fun _ => .pure _)).bind fun _ => .pure _
  · exact .pure _

theorem discharge2anyreg_keeps {e : ExprContext} {line : ℕ} : Keeps (I := I) d c (discharge2anyreg e line) := by
  unfold discharge2anyreg
  split
  · exact .pure _
  · exact reserveRegs_keeps.bind fun _ => (Keeps.getFs _).bind fun _ => discharge2reg_keeps

theorem valueNeeded_keeps {e : ExprContext} : Keeps (I := I) d c (valueNeeded e) :=
  needValue_keeps.bind fun _ => .ite (.pure _) needValue_keeps

theorem loadBools_keeps {e : ExprContext} {reg line : ℕ} : Keeps (I := I) d c (loadBools e reg line) := by
  refine valueNeeded_keeps.bind fun _ => .ite (.bind (.ite (.pure _) (emitJump_keeps.bind fun _ => .pure _)) fun _ => ?_) (.pure _)
  exact codeLabel_keeps.bind fun _ => codeLabel_keeps.bind fun _ => patchToHere_keeps.bind fun _ => .pure _

theorem exp2reg_keeps {e : ExprContext} {reg line : ℕ} : Keeps (I := I) d c (exp2reg e reg line) := by
  refine discharge2reg_keeps.bind fun e => .bind (.ite concatJumps_keeps (.pure _)) fun t => ?_
  refine .bind (.onlyIf (loadBools_keeps.bind fun _ => getLabel_keeps.bind fun _ => ?_)) fun _ => .pure _
  exact patchListAux_keeps.bind fun _ => patchListAux_keeps

theorem exp2nextreg_keeps {e : ExprContext} {line : ℕ} : Keeps (I := I) d c (exp2nextreg e line) :=
  dischargeVars_keeps.bind fun _ => freeExpr_keeps.bind fun _ => allocReg_keeps.bind fun _ => exp2reg_keeps

theorem exp2anyreg_keeps {e : ExprContext} {line : ℕ} : Keeps (I := I) d c (exp2anyreg e line) := by
  refine dischargeVars_keeps.bind fun e => ?_
  split
  · exact .ite (.pure _) ((Keeps.getFs _).bind fun _ => .ite exp2reg_keeps exp2nextreg_keeps)
  · exact exp2nextreg_keeps

theorem exp2val_keeps {e : ExprContext} {line : ℕ} : Keeps (I := I) d c (exp2val e line) := by
  refine .ite (dischargeVars_keeps.bind fun e => .recover exp2anyreg_keeps fun error => ?_) dischargeVars_keeps
  exact (Keeps.slip _).bind fun _ => .ite (.pure _) (.throw _)

theorem exp2rk_keeps {e : ExprContext} {line : ℕ} : Keeps (I := I) d c (exp2rk e line) := by
  refine exp2val_keeps.bind fun e => ?_
  have hreg : Keeps (I := I) d c (do
      let e ← exp2anyreg e line
      pure (e, e.info)) := exp2anyreg_keeps.bind fun _ => .pure _
  dsimp only
  split
  · exact (Keeps.getFs _).bind fun _ => .ite (nilConstant_keeps.bind fun _ => .pure _) hreg
  · exact (Keeps.getFs _).bind fun _ => .ite ((addConstant_keeps rfl).bind fun _ => .pure _) hreg
  · exact (Keeps.getFs _).bind fun _ => .ite ((addConstant_keeps rfl).bind fun _ => .pure _) hreg
  · exact .ite (.pure _) hreg
  · exact numberConstant_keeps.bind fun _ => .ite (.pure _) hreg
  · exact hreg

theorem storevar_keeps {var ex : ExprContext} {line : ℕ} : Keeps (I := I) d c (storevar var ex line) := by
  unfold storevar
  split
  · exact freeExpr_keeps.bind fun _ => exp2reg_keeps.bind fun _ => freeExpr_keeps
  · exact exp2anyreg_keeps.bind fun _ => emitAbc_keeps.bind fun _ => freeExpr_keeps
  · exact exp2anyreg_keeps.bind fun _ => emitAbx_keeps.bind fun _ => freeExpr_keeps
  · exact exp2rk_keeps.bind fun _ => emitAbc_keeps.bind fun _ => freeExpr_keeps
  · exact .syntaxError _

/-! ### Conditions -/

theorem invertjump_keeps {e : ExprContext} : Keeps (I := I) d c (invertjump e) :=
  getJumpControl_keeps.bind fun _ => getInstruction_keeps.bind fun _ => setInstruction_keeps

/-- A word takes the place of the one that has been taken back. -/
theorem popInstruction_keeps {f : ℕ → Gen I α} {op : OpCode} {a b x line : ℕ} (hf : ∀ pc, Keeps 0 False (f pc)) :
    Keeps 0 False (do
      popInstruction
      let pc ← emitAbc op a b x line
      f pc) := by
  refine fun sh outer => .bind (M := fun _ => At 1 sh outer) (.change fun s hs => ⟨?_, hs.enclosing⟩) fun _ => .bind
    (M := fun _ => At 0 sh outer) ((emit_spec (c := False) le_rfl).mono (fun _ => id)
      (fun _ _ h => h.1) fun _ _ _ => False.elim) fun pc =>
    hf pc sh outer
  exact { hs.fs with
    lines := by simp [hs.fs.lines]
    pool := { hs.fs.pool with }
    localVars := fun i v hv => (hs.fs.localVars i v hv).mono (by simp [FuncState.pc]; omega) id }

theorem jumponcond_keeps {e : ExprContext} {cond : Bool} {line : ℕ} : Keeps (I := I) 0 False (jumponcond e cond line) := by
  refine .bind ?_ fun negated => ?_
  · split
    · exact getInstruction_keeps.bind fun _ => isOp_keeps.bind fun _ => .ite (.pure _) (.pure _)
    · exact .pure _
  · cases negated with
    | some reg => exact popInstruction_keeps fun _ => emitJump_keeps.bind fun _ => .pure _
    | none => exact discharge2anyreg_keeps.bind fun _ => freeExpr_keeps.bind fun _ => emitAbc_keeps.bind fun _ =>
        emitJump_keeps.bind fun _ => .pure _

theorem goiftrue_keeps {e : ExprContext} {line : ℕ} : Keeps (I := I) 0 False (goiftrue e line) := by
  refine dischargeVars_keeps.bind fun e => .bind ?_ fun r => concatJumps_keeps.bind fun _ =>
    patchToHere_keeps.bind fun _ =>
    .pure _
  split
  any_goals exact .pure _
  · exact emitJump_keeps.bind fun _ => .pure _
  · exact invertjump_keeps.bind fun _ => .pure _
  · exact jumponcond_keeps.bind fun _ => .pure _

theorem goiffalse_keeps {e : ExprContext} {line : ℕ} : Keeps (I := I) 0 False (goiffalse e line) := by
  refine dischargeVars_keeps.bind fun e => .bind ?_ fun r => concatJumps_keeps.bind fun _ =>
    patchToHere_keeps.bind fun _ =>
    .pure _
  split
  any_goals exact .pure _
  · exact emitJump_keeps.bind fun _ => .pure _
  · exact jumponcond_keeps.bind fun _ => .pure _

theorem compileCondition_keeps {e : ExprContext} {line : ℕ} : Keeps (I := I) 0 False (compileCondition e line) :=
  goiftrue_keeps.bind fun _ => .pure _

/-! ### Several values, and tables -/

theorem setMultret_keeps {e : ExprContext} : Keeps (I := I) d c (setMultret e) := by
  unfold setMultret
  split
  · exact getInstruction_keeps.bind fun _ => setInstruction_keeps.bind fun _ => .pure _
  · exact getInstruction_keeps.bind fun _ => (Keeps.getFs _).bind fun _ => setInstruction_keeps.bind fun _ =>
      (Keeps.recover reserveRegs_keeps fun _ => .pure _).bind fun _ => .pure _
  · exact .pure _

theorem setIndexed_keeps {table key : ExprContext} {line : ℕ} : Keeps (I := I) d c (setIndexed table key line) :=
  exp2rk_keeps.bind fun _ => .pure _

theorem codeSelf_keeps {e key : ExprContext} {line : ℕ} : Keeps (I := I) d c (codeSelf e key line) :=
  exp2anyreg_keeps.bind fun _ => freeExpr_keeps.bind fun _ => (Keeps.getFs _).bind fun _ =>
    reserveRegs_keeps.bind fun _ =>
    exp2rk_keeps.bind fun _ => emitAbc_keeps.bind fun _ => freeExpr_keeps.bind fun _ => .pure _

/-! ### Operators -/

theorem isTemporary_keeps {reg : ℕ} : Keeps (I := I) d c (isTemporary reg) := (Keeps.getFs _).bind fun _ => .pure _

theorem arithOperands_keeps {op : OpCode} {e1 e2 : ExprContext} {line : ℕ} :
    Keeps (I := I) d c (arithOperands op e1 e2 line) := by
  refine .ite (exp2nextreg_keeps.bind fun _ => exp2anyreg_keeps.bind fun _ => .pure _) (.ite
    (exp2anyreg_keeps.bind fun _ => .pure _) (exp2rk_keeps.bind fun _ => isTemporary_keeps.bind fun _ => ?_))
  exact exp2rk_keeps.bind fun _ => (Keeps.onlyIf (.slip _)).bind fun _ => .pure _

theorem codeArith_keeps [Arithmetic] {op : OpCode} {e1 e2 : ExprContext} {line : ℕ} :
    Keeps (I := I) d c (codeArith op e1 e2 line) := by
  unfold codeArith
  split
  · exact .pure _
  · exact arithOperands_keeps.bind fun _ => freeExpr_keeps.bind fun _ => freeExpr_keeps.bind fun _ =>
      emitAbc_keeps.bind fun _ =>
      .pure _

theorem holdsRegs_keeps {e : ExprContext} : Keeps (I := I) d c (holdsRegs e) := by
  unfold holdsRegs
  split
  · exact isTemporary_keeps
  · exact .pure _
  · exact isTemporary_keeps.bind fun _ => isTemporary_keeps.bind fun _ => .pure _
  · exact .pure _

theorem codeComp_keeps {op : OpCode} {cond : ℕ} {e1 e2 : ExprContext} {line : ℕ} :
    Keeps (I := I) d c (codeComp op cond e1 e2 line) :=
  holdsRegs_keeps.bind fun _ => exp2rk_keeps.bind fun _ => (Keeps.onlyIf (.slip _)).bind fun _ =>
    exp2rk_keeps.bind fun _ => freeExpr_keeps.bind fun _ => freeExpr_keeps.bind fun _ =>
    emitAbc_keeps.bind fun _ => emitJump_keeps.bind fun _ => .pure _

theorem infixExpr_keeps {op : BinOp} {e : ExprContext} {line : ℕ} : Keeps (I := I) 0 False (infixExpr op e line) := by
  unfold infixExpr
  split
  · exact goiftrue_keeps
  · exact goiffalse_keeps
  · exact exp2nextreg_keeps
  · exact .ite (.pure _) (exp2rk_keeps.bind fun _ => .pure _)

theorem mergeConcat_keeps {e1 e2 : ExprContext} : Keeps (I := I) d c (mergeConcat e1 e2) := by
  unfold mergeConcat
  split
  · refine getInstruction_keeps.bind fun _ => isOp_keeps.bind fun _ => .ite (freeExpr_keeps.bind fun _ => ?_) (.pure _)
    exact getInstruction_keeps.bind fun _ => setInstruction_keeps.bind fun _ => .pure _
  · exact .pure _

theorem postfixExpr_keeps [Arithmetic] {op : BinOp} {e1 e2 : ExprContext} {line : ℕ} :
    Keeps (I := I) d c (postfixExpr op e1 e2 line) := by
  unfold postfixExpr
  split
  · exact dischargeVars_keeps.bind fun _ => concatJumps_keeps.bind fun _ => .pure _
  · exact dischargeVars_keeps.bind fun _ => concatJumps_keeps.bind fun _ => .pure _
  · refine exp2val_keeps.bind fun _ => mergeConcat_keeps.bind fun merged => ?_
    split
    · exact .pure _
    · exact exp2nextreg_keeps.bind fun _ => codeArith_keeps
  all_goals first | exact codeArith_keeps | exact codeComp_keeps

theorem codeNot_keeps {e : ExprContext} {line : ℕ} : Keeps (I := I) d c (codeNot e line) := by
  refine dischargeVars_keeps.bind fun e => .bind ?_ fun _ => removeValues_keeps.bind fun _ =>
    removeValues_keeps.bind fun _ =>
    .pure _
  have hnot : Keeps (I := I) d c (do
      let e ← discharge2anyreg e line
      freeExpr e
      let pc ← emitAbc .not 0 e.info 0 line
      pure { e with kind := .relocable, info := pc }) :=
    discharge2anyreg_keeps.bind fun _ => freeExpr_keeps.bind fun _ => emitAbc_keeps.bind fun _ => .pure _
  split
  any_goals first | exact .pure _ | exact hnot
  exact invertjump_keeps.bind fun _ => .pure _

theorem prefixExpr_keeps [Arithmetic] {op : UnOp} {e : ExprContext} {line : ℕ} :
    Keeps (I := I) d c (prefixExpr op e line) := by
  unfold prefixExpr
  split
  · exact .bind (.ite exp2anyreg_keeps (.pure _)) fun _ => codeArith_keeps
  · exact codeNot_keeps
  · exact exp2anyreg_keeps.bind fun _ => codeArith_keeps

theorem codeSetlist_keeps {base nelems tostore line : ℕ} : Keeps (I := I) d c (codeSetlist base nelems tostore line) :=
  emitAbc_keeps.bind fun _ => (Keeps.onlyIf (emit_keeps.bind fun _ => .pure _)).bind fun _ =>
    .modifyFs fun _ _ h => h.frame

end

end Rilua.Codegen
