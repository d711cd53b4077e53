import Rilua.Vm.PrepareMeaning

/-! Loading what was dumped. For every piece of the format, the reader takes exactly the bytes the writer
    appended and returns the value written; the pieces are put together along the steps of the loader, and
    along the tree of functions by induction. -/

namespace Rilua.Vm

open Lib Gc

/-! ### Numbers and strings -/

section Reads

variable {data : List UInt8} (name : String) (hdata : data.length ≤ isizeMax)

theorem isizeMax_lt : isizeMax < 2 ^ 63 := by rw [isizeMax]; omega

theorem reads_loadByte (b : UInt8) : Reader.Reads data (loadByte name) [b] b := by
  intro pos hle hpos
  obtain ⟨rest, hrest⟩ := hpos
  have hget : data[pos]? = some b := by
    rw [← Nat.add_zero pos, ← List.getElem?_drop, ← hrest]
    rfl
  rw [loadByte, hget]
  rfl

theorem asUsize_ofNat {n : ℕ} (h : n < 2 ^ 31) : asUsize (BitVec.ofNat 32 n) = n := by
  have hmsb : (BitVec.ofNat 32 n).msb = false := by
    rw [BitVec.msb_eq_decide, decide_eq_false]
    rw [BitVec.toNat_ofNat]
    omega
  rw [asUsize, BitVec.signExtend_eq_setWidth_of_msb_false hmsb, BitVec.toNat_setWidth, BitVec.toNat_ofNat]
  omega

theorem reads_reserve {n size : ℕ} (h : n * size ≤ isizeMax) :
    Reader.Reads data (reserve n size) [] () := by
  rw [reserve, if_neg (by omega)]
  exact .pure ()

include hdata

theorem reads_loadBlock (bs : List UInt8) : Reader.Reads data (loadBlock name bs.length) bs bs := by
  intro pos hle hpos
  have hlen := hpos.length_le
  have hmax := isizeMax_lt
  rw [List.length_drop] at hlen
  rw [loadBlock, if_neg (by rw [usizeMax]; omega), if_neg (by omega), ← List.prefix_iff_eq_take.mp hpos]

theorem reads_loadInt (n : BitVec 32) : Reader.Reads data (loadInt name) (dumpInt n) n := by
  have hval : BitVec.ofNat 32 (ofLeBytes (dumpInt n)) = n := by
    rw [dumpInt, ofLeBytes_leBytes, Nat.mod_eq_of_lt (by have := n.isLt; omega), BitVec.ofNat_toNat,
      BitVec.setWidth_eq]
  have := Reader.Reads.map (reads_loadBlock name hdata (dumpInt n)) fun bytes =>
    BitVec.ofNat 32 (ofLeBytes bytes)
  rw [hval] at this
  exact this

theorem reads_loadSize (n : BitVec 64) : Reader.Reads data (loadSize name) (dumpSize n) n := by
  have hval : BitVec.ofNat 64 (ofLeBytes (dumpSize n)) = n := by
    rw [dumpSize, ofLeBytes_leBytes, Nat.mod_eq_of_lt (by have := n.isLt; omega), BitVec.ofNat_toNat,
      BitVec.setWidth_eq]
  have := Reader.Reads.map (reads_loadBlock name hdata (dumpSize n)) fun bytes =>
    BitVec.ofNat 64 (ofLeBytes bytes)
  rw [hval] at this
  exact this

theorem reads_loadNumber (x : F64) : Reader.Reads data (loadNumber name) (dumpNumber x) x := by
  have hval : F64.ofBits (ofLeBytes (dumpNumber x)) = x := by
    rw [dumpNumber, ofLeBytes_leBytes, Nat.mod_eq_of_lt (by have := x.toBits_lt; omega), F64.ofBits_toBits]
  have := Reader.Reads.map (reads_loadBlock name hdata (dumpNumber x)) fun bytes =>
    F64.ofBits (ofLeBytes bytes)
  rw [hval] at this
  exact this

theorem reads_loadString (s : Option (List UInt8)) :
    Reader.Reads data (loadString name) (dumpString s) s := by
  cases s with
  | none =>
    have := (reads_loadSize name hdata 0).bind (f := fun size => if size = 0 then pure none else do
      let data ← loadBlock name (size - 1).toNat
      let _ ← loadByte name
      pure (some data)) (Reader.Reads.pure none)
    rwa [List.append_nil] at this
  | some s =>
    refine Reader.Reads.of_length_le fun hlen => ?_
    have hmax := isizeMax_lt
    have hs : s.length < 2 ^ 63 := by
      rw [dumpString, List.length_append, List.length_append] at hlen
      omega
    have hone : BitVec.ofNat 64 s.length + 1 ≠ 0 := by
      intro h
      have := congrArg BitVec.toNat h
      rw [BitVec.toNat_add, BitVec.toNat_ofNat] at this
      simp at this
      omega
    have hsize : (BitVec.ofNat 64 s.length + 1 - 1).toNat = s.length := by
      rw [BitVec.add_sub_cancel, BitVec.toNat_ofNat]
      exact Nat.mod_eq_of_lt (by omega)
    rw [dumpString, List.append_assoc]
    refine (reads_loadSize name hdata _).bind ?_
    rw [if_neg hone, hsize]
    exact (reads_loadBlock name hdata s).bind (Reader.Reads.map (reads_loadByte name 0) _)

/-! ### Lists -/

theorem reads_loadList {α γ : Type} {element : ChunkReader α} {enc : γ → List UInt8} {val : γ → α}
    {xs : List γ} {size : ℕ} (hlen : xs.length < 2 ^ 31) (hsize : size ≤ 32)
    (h : ∀ x ∈ xs, Reader.Reads data element (enc x) (val x)) :
    Reader.Reads data (loadList name size element) (dumpLength xs.length ++ xs.flatMap enc) (xs.map val) := by
  refine (reads_loadInt name hdata _).bind ?_
  rw [asUsize_ofNat hlen]
  have hmul : xs.length * size ≤ xs.length * 32 := Nat.mul_le_mul_left _ hsize
  exact (reads_reserve (by rw [isizeMax]; omega)).bind_nil (Reader.Reads.times h)

omit hdata in
theorem u32Chunks_flatMap (xs : List (BitVec 32)) : u32Chunks (xs.flatMap dumpInt) = xs := by
  induction xs with
  | nil => rfl
  | cons x xs ih =>
    have hx : dumpInt x = [UInt8.ofNat x.toNat, UInt8.ofNat (x.toNat / 256),
      UInt8.ofNat (x.toNat / 256 / 256), UInt8.ofNat (x.toNat / 256 / 256 / 256)] := rfl
    have hval : BitVec.ofNat 32 (ofLeBytes (dumpInt x)) = x := by
      rw [dumpInt, ofLeBytes_leBytes, Nat.mod_eq_of_lt (by have := x.isLt; omega), BitVec.ofNat_toNat,
        BitVec.setWidth_eq]
    rw [hx] at hval
    rw [List.flatMap_cons, hx]
    simp only [List.cons_append, List.nil_append, u32Chunks, hval, ih]

omit hdata in
theorem length_flatMap_dumpInt (xs : List (BitVec 32)) : (xs.flatMap dumpInt).length = xs.length * 4 := by
  induction xs with
  | nil => rfl
  | cons x xs ih =>
    rw [List.flatMap_cons, List.length_append, ih, dumpInt, length_leBytes, List.length_cons]
    omega

theorem reads_loadCode {xs : List (BitVec 32)} (hlen : xs.length < 2 ^ 31) :
    Reader.Reads data (loadCode name) (dumpLength xs.length ++ xs.flatMap dumpInt) xs := by
  refine (reads_loadInt name hdata _).bind ?_
  rw [asUsize_ofNat hlen, loadU32Vec, if_neg (by rw [usizeMax]; omega), ← length_flatMap_dumpInt]
  have := Reader.Reads.map (reads_loadBlock name hdata (xs.flatMap dumpInt)) u32Chunks
  rwa [u32Chunks_flatMap] at this

/-! ### Constants -/

theorem reads_loadConstant_str (bytes : List UInt8) (i : ℕ) :
    Reader.Reads data (loadConstant name i) (luaTString :: dumpString (some bytes))
      (.nil, some ⟨BitVec.ofNat 32 i, bytes, luaHash bytes⟩) := by
  refine (reads_loadByte name luaTString).bind_cons ?_
  rw [if_neg (by decide), if_neg (by decide), if_neg (by decide), if_pos rfl]
  exact Reader.Reads.map (reads_loadString name hdata (some bytes)) fun bytes : Option (List UInt8) =>
    (Val.nil, some (⟨BitVec.ofNat 32 i, bytes.getD [], luaHash (bytes.getD [])⟩ : StringPoolEntry))

theorem reads_loadConstant (d : DumpState) (pool : List StringPoolEntry) (i : ℕ) {v : Val}
    (hv : constantOf d.stringArena pool i v ≠ .invalid) :
    Reader.Reads data (loadConstant name i) (dumpConstant d pool i v)
      ((constantOf d.stringArena pool i v).placeholder,
        Constant.poolEntry (constantOf d.stringArena pool i v, i)) := by
  cases v with
  | nil =>
    rw [dumpConstant, constantOf]
    cases poolBytes pool i with
    | none =>
      refine (reads_loadByte name luaTNil).bind_cons ?_
      rw [if_pos rfl]
      exact .pure _
    | some bytes => exact reads_loadConstant_str name hdata bytes i
  | bool b =>
    have hb : (b.toUInt8 != 0) = b := by cases b <;> rfl
    refine (reads_loadByte name luaTBoolean).bind_cons ?_
    rw [if_neg (by decide), if_pos rfl]
    have hbyte : Reader.Reads data (loadByte name) [b.toUInt8] b.toUInt8 := reads_loadByte name _
    have := hbyte.map fun b => (Val.bool (b != 0), (none : Option StringPoolEntry))
    rwa [hb] at this
  | num n =>
    refine (reads_loadByte name luaTNumber).bind_cons ?_
    rw [if_neg (by decide), if_neg (by decide), if_pos rfl]
    exact Reader.Reads.map (reads_loadNumber name hdata n) fun n =>
      (Val.num n, (none : Option StringPoolEntry))
  | str r =>
    rw [constantOf] at hv ⊢
    rw [dumpConstant]
    cases ha : d.stringArena with
    | none => rw [ha] at hv; exact absurd rfl hv
    | some arena =>
      rw [ha, Option.bind_some] at hv
      simp only [Option.bind_some]
      cases hr : arena.get r with
      | none => rw [hr] at hv; exact absurd rfl hv
      | some s => exact reads_loadConstant_str name hdata s.data i
  | table r => exact absurd rfl hv
  | function r => exact absurd rfl hv
  | userdata r => exact absurd rfl hv
  | thread r => exact absurd rfl hv
  | lightUserdata p => exact absurd rfl hv

omit hdata in
/-- Numbering the images of a numbered list. -/
theorem zipIdx_map_zipIdx {α β : Type} (xs : List α) (f : α × ℕ → β) :
    (xs.zipIdx.map f).zipIdx = xs.zipIdx.map fun x => (f x, x.2) := by
  refine List.ext_getElem? fun i => ?_
  simp only [List.getElem?_zipIdx, List.getElem?_map, Option.map_map, Nat.zero_add]
  rfl

theorem reads_loadConstantPool (d : DumpState) (p : Proto) (hlen : p.constants.length < 2 ^ 31)
    (hvalid : p.Valid d.stringArena) :
    Reader.Reads data (loadConstantPool name)
      (dumpLength p.constants.length ++ p.constants.zipIdx.flatMap fun (val, i) =>
        dumpConstant d p.stringPool i val)
      ((p.constantList d.stringArena).zipIdx.map fun (c, i) => (c.placeholder, Constant.poolEntry (c, i))) := by
  refine (reads_loadInt name hdata _).bind ?_
  rw [asUsize_ofNat hlen]
  refine (reads_reserve (by rw [isizeMax]; omega)).bind_nil ?_
  rw [Proto.constantList, zipIdx_map_zipIdx, List.map_map]
  exact Reader.Reads.timesFrom fun x hx => reads_loadConstant name hdata d p.stringPool x.2 fun hinvalid =>
    hvalid (hinvalid ▸ List.mem_map_of_mem hx)

/-! ### Debug information and names -/

theorem reads_loadName (s : String) :
    Reader.Reads data (loadName name) (dumpString (some (asBytes s))) s := by
  have := Reader.Reads.map (reads_loadString name hdata (some (asBytes s))) fun bytes =>
    fromUtf8Lossy (bytes.getD [])
  rwa [Option.getD_some, asBytes, fromUtf8Lossy_toByteArray] at this

theorem reads_loadLocalVar (var : LocalVar) :
    Reader.Reads data (loadLocalVar name) (dumpLocalVar var) var := by
  rw [dumpLocalVar, List.append_assoc]
  exact (reads_loadName name hdata var.name).bind ((reads_loadInt name hdata var.startPc).bind
    (Reader.Reads.map (reads_loadInt name hdata var.endPc) (LocalVar.mk var.name var.startPc)))

theorem reads_loadSource (source parentSource loadedSource : String) :
    Reader.Reads data (loadSource name loadedSource) (dumpSource source parentSource)
      (reloadSource source parentSource loadedSource) := by
  rw [dumpSource, reloadSource]
  split
  · exact Reader.Reads.map (reads_loadString name hdata none) fun bytes => bytes.elim loadedSource fromUtf8Lossy
  · have := Reader.Reads.map (reads_loadString name hdata (some (asBytes source))) fun bytes =>
      bytes.elim loadedSource fromUtf8Lossy
    rwa [Option.elim_some, asBytes, fromUtf8Lossy_toByteArray] at this

omit hdata in
theorem dumpDebug_eq (d : DumpState) (p : Proto) :
    dumpDebug d p =
      (dumpLength (if d.strip then [] else p.lineInfo).length ++
          (if d.strip then [] else p.lineInfo).flatMap dumpInt) ++
        ((dumpLength (if d.strip then [] else p.localVars).length ++
          (if d.strip then [] else p.localVars).flatMap dumpLocalVar) ++
        (dumpLength (if d.strip then [] else p.upvalueNames).length ++
          (if d.strip then [] else p.upvalueNames).flatMap fun name => dumpString (some (asBytes name)))) := by
  rw [dumpDebug]
  cases d.strip with
  | true => rfl
  | false => simp only [Bool.false_eq_true, if_false, List.append_assoc]

/-- The lists of a prototype are short enough for their lengths to be written as an `int`. -/
structure Proto.Fits (strip : Bool) (p : Proto) : Prop where
  code : p.code.length < 2 ^ 31
  constants : p.constants.length < 2 ^ 31
  protos : p.protos.length < 2 ^ 31
  lineInfo : (if strip then [] else p.lineInfo).length < 2 ^ 31
  localVars : (if strip then [] else p.localVars).length < 2 ^ 31
  upvalueNames : (if strip then [] else p.upvalueNames).length < 2 ^ 31

theorem reads_loadDebug (d : DumpState) {p : Proto} (hfits : p.Fits d.strip) (q : Proto) :
    Reader.Reads data (loadDebug name q) (dumpDebug d p)
      { q with
        lineInfo := if d.strip then [] else p.lineInfo
        localVars := if d.strip then [] else p.localVars
        upvalueNames := if d.strip then [] else p.upvalueNames } := by
  have hvars := reads_loadList name hdata hfits.localVars (Nat.le_refl 32) fun var _ =>
    reads_loadLocalVar name hdata var
  have hnames := reads_loadList name hdata hfits.upvalueNames (show 24 ≤ 32 by omega) fun s _ =>
    reads_loadName name hdata s
  rw [List.map_id'] at hvars hnames
  rw [dumpDebug_eq]
  exact (reads_loadCode name hdata hfits.lineInfo).bind (hvars.bind (Reader.Reads.map hnames fun names =>
    { q with
      lineInfo := if d.strip then [] else p.lineInfo
      localVars := if d.strip then [] else p.localVars
      upvalueNames := names }))

/-! ### Functions -/

omit hdata in
theorem dumpFunctions_eq (d : DumpState) (parentSource : String) :
    ∀ ps, dumpFunctions d parentSource ps = ps.flatMap (dumpFunction d parentSource) := by
  intro ps
  induction ps with
  | nil => rfl
  | cons p ps ih => rw [dumpFunctions, ih, List.flatMap_cons]

omit hdata in
theorem dumpFunction_eq (d : DumpState) (parentSource : String) (p : Proto) :
    dumpFunction d parentSource p =
      dumpSource p.source parentSource ++
        (dumpInt p.lineDefined ++ dumpInt p.lastLineDefined ++
          [p.numUpvalues, p.numParams, p.isVararg, p.maxStackSize]) ++
        dumpCode p ++
        (dumpLength p.constants.length ++ p.constants.zipIdx.flatMap fun (val, i) =>
          dumpConstant d p.stringPool i val) ++
        (dumpLength p.protos.length ++ p.protos.flatMap (dumpFunction d p.source)) ++
        dumpDebug d p := by
  obtain ⟨⟩ := p
  rw [dumpFunction, dumpFunctions_eq]

omit hdata in
/-- A nested function takes fewer bytes than the function it is nested in. -/
theorem length_dumpFunction_child (d : DumpState) (parentSource : String) {p c : Proto} (hc : c ∈ p.protos) :
    (dumpFunction d p.source c).length < (dumpFunction d parentSource p).length := by
  have hle : (dumpFunction d p.source c).length ≤ (p.protos.flatMap (dumpFunction d p.source)).length := by
    obtain ⟨before, after, heq⟩ := List.append_of_mem hc
    rw [heq, List.flatMap_append, List.flatMap_cons, List.length_append, List.length_append]
    omega
  rw [dumpFunction_eq d parentSource p]
  simp only [List.length_append, List.length_cons]
  omega

/-- A function is loaded as `reload` says. -/
theorem reads_loadFunction (d : DumpState) (p : Proto) (hvalid : p.Forall (Proto.Valid d.stringArena))
    (hfits : p.Forall (Proto.Fits d.strip)) (fuel : ℕ) (parentSource loadedSource : String)
    (hfuel : (dumpFunction d parentSource p).length < fuel) :
    Reader.Reads data (loadFunction name fuel loadedSource) (dumpFunction d parentSource p)
      (p.reload d.stringArena d.strip parentSource loadedSource) := by
  induction p using Proto.induction generalizing fuel parentSource loadedSource with
  | step p ih =>
    cases fuel with
    | zero => omega
    | succ fuel =>
      have hchildren := reads_loadList name hdata hfits.root.protos (show 8 ≤ 32 by omega) fun c hc =>
        ih c hc (hvalid.child hc) (hfits.child hc) fuel p.source
          (reloadSource p.source parentSource loadedSource)
          (by have := length_dumpFunction_child d parentSource hc; omega)
      have hconstants := reads_loadConstantPool name hdata d p hfits.root.constants hvalid.root
      rw [dumpFunction_eq, List.append_assoc, List.append_assoc, List.append_assoc, List.append_assoc,
        List.append_assoc, List.append_assoc, Proto.reload_eq]
      refine (reads_loadSource name hdata _ _ _).bind ?_
      refine (reads_loadInt name hdata _).bind ((reads_loadInt name hdata _).bind ?_)
      refine (reads_loadByte name _).bind_cons ((reads_loadByte name _).bind_cons ?_)
      refine (reads_loadByte name _).bind_cons ((reads_loadByte name _).bind_cons ?_)
      refine (reads_loadCode name hdata hfits.root.code).bind (hconstants.bind (hchildren.bind ?_))
      have hfst : ((p.constantList d.stringArena).zipIdx.map fun (c, i) =>
          (c.placeholder, Constant.poolEntry (c, i))).map Prod.fst =
            (p.constantList d.stringArena).map Constant.placeholder := by
        conv => rhs; rw [← List.zipIdx_map_fst 0 (p.constantList d.stringArena)]
        rw [List.map_map, List.map_map]
        rfl
      have hsnd : ((p.constantList d.stringArena).zipIdx.map fun (c, i) =>
          (c.placeholder, Constant.poolEntry (c, i))).filterMap Prod.snd =
            (p.constantList d.stringArena).zipIdx.filterMap Constant.poolEntry := by
        rw [List.filterMap_map]
        rfl
      rw [hfst, hsnd]
      exact reads_loadDebug name hdata d hfits.root _

theorem reads_loadHeader : Reader.Reads data (loadHeader name) makeHeader () := by
  have hrest : luacHeaderSize - luaSignature.length = (makeHeader.drop luaSignature.length).length := rfl
  rw [loadHeader, hrest]
  refine (reads_loadBlock name hdata luaSignature).bind ?_
  rw [if_neg (by simp)]
  refine (reads_loadBlock name hdata (makeHeader.drop luaSignature.length)).bind_last ?_
  rw [if_neg (by simp)]
  exact .pure ()

end Reads

/-- A dump is loaded as `reload` says. -/
theorem undump_dump {p : Proto} {arena : Option StringArena} {strip : Bool} (name : String)
    (hvalid : p.Forall (Proto.Valid arena)) (hfits : p.Forall (Proto.Fits strip))
    (hdata : (dump p arena strip).length ≤ isizeMax) :
    undump (dump p arena strip) name = .ok (p.reload arena strip "" name) := by
  have hfuel : (dumpFunction { strip, stringArena := arena } "" p).length <
      (dump p arena strip).length + 1 := by
    rw [dump, List.length_append]
    omega
  have hread := (reads_loadHeader name hdata).bind (f := fun _ => loadFunction name _ name)
    (reads_loadFunction name hdata { strip, stringArena := arena } p hvalid hfits _ "" name hfuel)
  rw [undump, hread 0 (Nat.zero_le _) (List.prefix_refl _)]
  rfl

/-! ### What a load can return -/

section Returns

variable {data : List UInt8} (name : String)

theorem returns_reserve (n size : ℕ) :
    Reader.Returns data (reserve n size) fun _ => n * size ≤ isizeMax := by
  rw [reserve]
  split
  · exact .fail _ _
  · exact .pure (by omega)

theorem returns_loadList {α : Type} {size : ℕ} (hsize : 0 < size) {element : ChunkReader α} {P : α → Prop}
    (h : Reader.Returns data element P) :
    Reader.Returns data (loadList name size element) fun xs => xs.length < 2 ^ 31 ∧ ∀ x ∈ xs, P x := by
  refine (Reader.Returns.any _).bind fun n _ => (returns_reserve _ size).bind fun _ hn => ?_
  rintro pos xs pos' hxs
  obtain ⟨hlen, hall⟩ := Reader.Returns.times h _ pos xs pos' hxs
  have hle := Nat.le_mul_of_pos_right (asUsize n) hsize
  have hmax := isizeMax_lt
  rcases asUsize_lt_or n with hlt | hge
  · exact ⟨hlen ▸ hlt, hall⟩
  · omega

theorem length_u32Chunks : ∀ bs : List UInt8, (u32Chunks bs).length * 4 ≤ bs.length
  | [] => Nat.le_refl _
  | [_] => Nat.zero_le _
  | [_, _] => Nat.zero_le _
  | [_, _, _] => Nat.zero_le _
  | _ :: _ :: _ :: _ :: bs => by
    have ih := length_u32Chunks bs
    simp only [u32Chunks, List.length_cons]
    omega

theorem returns_loadBlock (n : ℕ) : Reader.Returns data (loadBlock name n) fun bs => bs.length ≤ n := by
  intro pos bs pos' h
  rw [loadBlock] at h
  split at h
  · cases h
  · split at h
    · cases h
    · cases h
      exact List.length_take_le _ _

theorem returns_loadCode : Reader.Returns data (loadCode name) fun xs => xs.length < 2 ^ 31 := by
  refine (Reader.Returns.any _).bind fun n _ => ?_
  rw [loadU32Vec]
  split
  · exact .fail _ _
  · next hn =>
    refine (returns_loadBlock name _).bind fun bs hbs => .pure ?_
    have hchunks := length_u32Chunks bs
    rw [usizeMax] at hn
    rcases asUsize_lt_or n with hlt | hge <;> omega

theorem returns_loadConstantPool :
    Reader.Returns data (loadConstantPool name) fun cs => cs.length < 2 ^ 31 := by
  refine (Reader.Returns.any _).bind fun n _ => (returns_reserve _ 16).bind fun _ hn => ?_
  rintro pos cs pos' hcs
  have hlen := (Reader.Returns.timesFrom (fun i => Reader.Returns.any (loadConstant name i)) _ _ pos cs pos' hcs).1
  have hmax := isizeMax_lt
  rcases asUsize_lt_or n with hlt | hge <;> omega

/-- The lists of a loaded prototype are as short as the format requires. -/
theorem returns_loadFunction (fuel : ℕ) (parentSource : String) :
    Reader.Returns data (loadFunction name fuel parentSource) (Proto.Forall (Proto.Fits false)) := by
  induction fuel generalizing parentSource with
  | zero => exact .fail _ _
  | succ fuel ih =>
    refine (Reader.Returns.any _).bind fun source _ => (Reader.Returns.any _).bind fun _ _ => ?_
    refine (Reader.Returns.any _).bind fun _ _ => (Reader.Returns.any _).bind fun _ _ => ?_
    refine (Reader.Returns.any _).bind fun _ _ => (Reader.Returns.any _).bind fun _ _ => ?_
    refine (Reader.Returns.any _).bind fun _ _ => (returns_loadCode name).bind fun code hcode => ?_
    refine (returns_loadConstantPool name).bind fun cs hcs => ?_
    refine (returns_loadList name (by omega) (ih source)).bind fun protos hprotos => ?_
    refine (returns_loadCode name).bind fun lineInfo hlines => ?_
    refine (returns_loadList name (by omega) (Reader.Returns.any _)).bind fun vars hvars => ?_
    refine (returns_loadList name (by omega) (Reader.Returns.any _)).bind fun names hnames => ?_
    exact .pure (.mk ⟨hcode, by simpa using hcs, hprotos.1, hlines, hvars.1, hnames.1⟩ hprotos.2)

end Returns

theorem undump_fits {bytes : List UInt8} {name : String} {q : Proto} (h : undump bytes name = .ok q) :
    q.Forall (Proto.Fits false) := by
  rw [undump] at h
  cases hr : (do loadHeader name; loadFunction name (bytes.length + 1) name : ChunkReader Proto) bytes 0 with
  | error e => rw [hr] at h; cases h
  | ok x =>
    rw [hr] at h
    cases h
    exact (Reader.Returns.any _).bind (fun _ _ => returns_loadFunction name _ name) 0 x.1 x.2 hr

/-! ### The round trip -/

theorem length_patchEntries : ∀ {pool : List StringPoolEntry} {constants constants' : List Val}
    {gc gc' : InternState}, patchEntries pool constants gc = some (gc', constants') →
      constants'.length = constants.length
  | [], _, _, _, _, h => by cases h; rfl
  | entry :: pool, constants, constants', gc, gc', h => by
    rw [patchEntries] at h
    obtain ⟨⟨gc₁, r⟩, -, h⟩ := Option.bind_eq_some_iff.mp h
    simp only at h
    split at h
    · rw [length_patchEntries h, List.length_set]
    · cases h

theorem patchStringConstantsList_forall {P Q : Proto → Prop} :
    ∀ {ps qs : List Proto} {gc gc' : InternState},
      (∀ p ∈ ps, P p → ∀ {gc gc' q}, patchStringConstantsInner gc p = some (gc', q) → Q q) →
      (∀ p ∈ ps, P p) → patchStringConstantsList gc ps = some (gc', qs) →
      qs.length = ps.length ∧ ∀ q ∈ qs, Q q
  | [], _, _, _, _, _, h => by cases h; exact ⟨rfl, by simp⟩
  | p :: ps, _, gc, gc', hstep, hps, h => by
    rw [patchStringConstantsList_cons] at h
    obtain ⟨⟨gc₁, q⟩, hq, h⟩ := Option.bind_eq_some_iff.mp h
    obtain ⟨⟨gc₂, qs⟩, hqs, h⟩ := Option.map_eq_some_iff.mp h
    cases h
    rw [List.forall_mem_cons] at hps hstep
    obtain ⟨hlen, hall⟩ := patchStringConstantsList_forall hstep.2 hps.2 hqs
    exact ⟨congrArg (· + 1) hlen, List.forall_mem_cons.mpr ⟨hstep.1 hps.1 hq, hall⟩⟩

/-- Interning the constants does not change the length of any list. -/
theorem fits_patchStringConstantsInner {strip : Bool} (p : Proto) (h : p.Forall (Proto.Fits strip)) :
    ∀ {gc gc' : InternState} {q : Proto}, patchStringConstantsInner gc p = some (gc', q) →
      q.Forall (Proto.Fits strip) := by
  induction p using Proto.induction with
  | step p ih =>
    intro gc gc' q hq
    have hroot := h.root
    have hchild := fun c hc => h.child (c := c) hc
    obtain ⟨⟩ := p
    rw [patchStringConstantsInner] at hq
    obtain ⟨⟨gc₁, vals⟩, hvals, hq⟩ := Option.bind_eq_some_iff.mp hq
    obtain ⟨⟨gc₂, qs⟩, hqs, hq⟩ := Option.bind_eq_some_iff.mp hq
    cases hq
    obtain ⟨hlen, hall⟩ := patchStringConstantsList_forall ih hchild hqs
    exact .mk ⟨hroot.code, length_patchEntries hvals ▸ hroot.constants, hlen ▸ hroot.protos,
      hroot.lineInfo, hroot.localVars, hroot.upvalueNames⟩ hall

/-- Nor does rewriting the accesses to globals. -/
theorem fits_patchGlobalSlotOpcodes {strip : Bool} (st : PrepareState) (p : Proto)
    (h : p.Forall (Proto.Fits strip)) : (patchGlobalSlotOpcodes st p).Forall (Proto.Fits strip) := by
  rw [patchGlobalSlotOpcodes]
  cases st.globalSlots with
  | none => exact h
  | some rt =>
    induction p using Proto.induction with
    | step p ih =>
      have hroot := h.root
      have hchild := fun c hc => ih c hc (h.child hc)
      obtain ⟨⟩ := p
      simp only [patchGlobalSlots, patchGlobalSlotsList_eq, patchCode_fst]
      refine .mk ⟨?_, hroot.constants, ?_, hroot.lineInfo, hroot.localVars, hroot.upvalueNames⟩ ?_
      · rw [List.length_map]
        exact hroot.code
      · rw [List.length_map]
        exact hroot.protos
      · exact List.forall_mem_map.mpr hchild

/-- Prototypes with the same meaning have lists of the same length. -/
theorem fits_of_meaning_eq {arena arena' : Option StringArena} {slotName slotName' : ℕ → Option (List UInt8)}
    {strip : Bool} (p q : Proto) (hq : q.Forall (Proto.Fits false))
    (heq : q.meaning arena slotName strip = p.meaning arena' slotName' strip) :
    p.Forall (Proto.Fits strip) := by
  induction p using Proto.induction generalizing q with
  | step p ih =>
    rw [Proto.meaning_eq, Proto.meaning_eq] at heq
    simp only [ProtoMeaning.mk.injEq] at heq
    obtain ⟨hcode, hconstants, hchildren, hlines, hvars, hnames, -⟩ := heq
    have hcode := congrArg List.length hcode
    have hconstants := congrArg List.length hconstants
    have hlength := congrArg List.length hchildren
    rw [List.length_map, List.length_map] at hcode hlength
    rw [Proto.length_constantList, Proto.length_constantList] at hconstants
    have hroot := hq.root
    refine .mk ⟨hcode ▸ hroot.code, hconstants ▸ hroot.constants, hlength ▸ hroot.protos, ?_, ?_, ?_⟩
      fun c hc => ?_
    · rw [← hlines]
      cases strip
      · exact hroot.lineInfo
      · exact Nat.two_pow_pos _
    · rw [← hvars]
      cases strip
      · exact hroot.localVars
      · exact Nat.two_pow_pos _
    · rw [← hnames]
      cases strip
      · exact hroot.upvalueNames
      · exact Nat.two_pow_pos _
    · have hmem := List.mem_map_of_mem (f := Proto.meaning arena' slotName' strip) hc
      rw [← hchildren] at hmem
      obtain ⟨d, hd, hdc⟩ := List.mem_map.mp hmem
      exact ih c hc d (hq.child hd) hdc

/-- The dump of `p`, loaded under the chunk name `name` and prepared in `st`, is a prototype with the
    meaning of `p`, up to the debug information if it was stripped. The strings of `p` are in `arena` and
    the slots it accesses have the names `slotName`. -/
def Proto.SurvivesDump (p : Proto) (arena : Option StringArena) (slotName : ℕ → Option (List UInt8))
    (strip : Bool) (name : String) (st : PrepareState) : Prop :=
  ∃ q st' q', undump (dump p arena strip) name = .ok q ∧ prepareLoadedProto st q = some (st', q') ∧
    q'.meaning (some st'.gc.stringArena) st'.slotName strip = p.meaning arena slotName strip

section RoundTrip

variable {p : Proto} {arena : Option StringArena} {slotName : ℕ → Option (List UInt8)} {strip : Bool}
  {name : String} {st : PrepareState}

theorem reloadSource_eq_iff {source name : String} :
    reloadSource source "" name = source ↔ (source = "" → name = "") := by
  rw [reloadSource]
  split
  · next h => rw [h]; simp
  · next h => simp [h]

theorem survivesDump_of_fits (hvalid : p.Forall (Proto.Valid arena)) (hfits : p.Forall (Proto.Fits strip))
    (hdata : (dump p arena strip).length ≤ isizeMax) (hst : st.Ok)
    (hroom : st.HasRoom p.allConstants.length) :
    p.SurvivesDump arena slotName strip name st ↔
      (p.source = "" → name = "") ∧ p.Forall (Proto.GlobalsAgree st arena slotName) := by
  obtain ⟨st', q', hprepare, hiff⟩ := PrepareState.prepareLoadedProto_reload slotName strip hst hvalid
    (hfits.mono fun _ h => h.constants) hroom "" name
  rw [reloadSource_eq_iff] at hiff
  rw [← hiff]
  have hload := undump_dump name hvalid hfits hdata
  constructor
  · rintro ⟨q, st₁, q₁, hq, hq₁, heq⟩
    rw [hload] at hq
    cases hq
    rw [hprepare] at hq₁
    cases hq₁
    exact heq
  · exact fun heq => ⟨_, st', q', hload, hprepare, heq⟩

end RoundTrip

/-- The chunk `return x`, as the compiler leaves it. -/
def returnX : Proto :=
  { Proto.new "@a.lua" with
    code := [0x00000005, 0x0100001e, 0x0080001e], constants := [.nil], lineInfo := [1, 1, 1], isVararg := 2
    stringPool := [⟨0, [120], luaHash [120]⟩] }

end Rilua.Vm
