import Rilua.Stdlib.Gsub

/-! The result of `string.gsub`: the subject with its leftmost matches replaced. The replacement of a match is that of
    Lua 5.1 except for an escape that Lua 5.1 does not need, and for a number. -/

namespace Rilua.Stdlib

open Vm

/-! ### The leftmost matches -/

/-- The matches are the first ones from `pos` on that do not overlap, up to `limit` of them. With an anchor only the
    start of the subject is tried. -/
def Leftmost (cc : CharClasses) (s pattern : List UInt8) (anchor : Bool) : ℕ → ℕ → List GMatch → Prop
  | limit, pos, [] =>
    limit = 0 ∨ ∀ p, pos ≤ p → p ≤ s.length → (anchor = true → p = 0) → matchAt cc s pattern p = .ok none
  | limit, pos, m :: ms =>
    0 < limit ∧ pos ≤ m.start ∧ m.start ≤ s.length ∧ (anchor = true → m.start = 0) ∧
      matchAt cc s pattern m.start = .ok (some m) ∧
      (∀ p, pos ≤ p → p < m.start → (anchor = true → p = 0) → matchAt cc s pattern p = .ok none) ∧
      Leftmost cc s pattern anchor (limit - 1) m.next ms

/-- The subject from `pos` on with the matches replaced. -/
def rebuild (s : List UInt8) : ℕ → List GMatch → List (List UInt8) → List UInt8
  | pos, m :: ms, text :: texts => (s.drop pos).take (m.start - pos) ++ text ++ rebuild s m.stop ms texts
  | pos, _, _ => s.drop pos

/-- The texts that replace the matches, one after the other. -/
inductive Replaced {σ : Type} (replacement : σ → GMatch → Native (List UInt8) × σ) :
    σ → List GMatch → List (List UInt8) → σ → Prop where
  | nil (st : σ) : Replaced replacement st [] [] st
  | cons {st st₁ st₂ : σ} {m : GMatch} {ms : List GMatch} {text : List UInt8} {texts : List (List UInt8)}
      (head : replacement st m = (.ok text, st₁)) (tail : Replaced replacement st₁ ms texts st₂) :
      Replaced replacement st (m :: ms) (text :: texts) st₂

theorem Replaced.head_tail {σ : Type} {replacement : σ → GMatch → Native (List UInt8) × σ} {st st₂ : σ} {m : GMatch}
    {ms : List GMatch} {texts : List (List UInt8)} (h : Replaced replacement st (m :: ms) texts st₂) :
    ∃ text texts' st₁, texts = text :: texts' ∧ replacement st m = (.ok text, st₁) ∧
      Replaced replacement st₁ ms texts' st₂ := by
  cases h with
  | cons head tail => exact ⟨_, _, _, rfl, head, tail⟩

section Leftmost

variable {cc : CharClasses} {s pattern : List UInt8} {anchor : Bool} {limit pos : ℕ} {m : GMatch} {ms : List GMatch}
  {texts : List (List UInt8)}

theorem Leftmost.start_ge (h : Leftmost cc s pattern anchor limit pos ms) : ∀ m ∈ ms.head?, pos ≤ m.start := by
  cases ms with
  | nil => nofun
  | cons m ms =>
    intro m' hm'
    cases hm'
    exact h.2.1

theorem Leftmost.within (h : Leftmost cc s pattern anchor limit pos ms) : ∀ m ∈ ms, m.Within s m.start := by
  induction ms generalizing limit pos with
  | nil => nofun
  | cons m ms ih =>
    obtain ⟨-, -, hlen, -, hm, -, hrest⟩ := h
    have hw := (matchAt_within cc pattern hlen).of_ok hm m rfl
    exact List.forall_mem_cons.mpr ⟨hw, ih hrest⟩

theorem Leftmost.unique {ms' : List GMatch} (h : Leftmost cc s pattern anchor limit pos ms)
    (h' : Leftmost cc s pattern anchor limit pos ms') : ms = ms' := by
  induction ms generalizing limit pos ms' with
  | nil =>
    cases ms' with
    | nil => rfl
    | cons m' ms' =>
      obtain ⟨hpos, hle, hlen, hanchor, hm, -, -⟩ := h'
      rcases h with rfl | h
      · exact absurd hpos (Nat.lt_irrefl 0)
      · exact nomatch (h _ hle hlen hanchor).symm.trans hm
  | cons m ms ih =>
    obtain ⟨hpos, hle, hlen, hanchor, hm, hfirst, hrest⟩ := h
    cases ms' with
    | nil =>
      rcases h' with rfl | h'
      · exact absurd hpos (Nat.lt_irrefl 0)
      · exact nomatch (h' _ hle hlen hanchor).symm.trans hm
    | cons m' ms' =>
      obtain ⟨-, hle', hlen', hanchor', hm', hfirst', hrest'⟩ := h'
      rcases Nat.lt_trichotomy m.start m'.start with hlt | heq | hgt
      · exact nomatch (hfirst' _ hle hlt hanchor).symm.trans hm
      · rw [heq] at hm
        cases hm.symm.trans hm'
        rw [ih hrest hrest']
      · exact nomatch (hfirst _ hle' hgt hanchor').symm.trans hm'

theorem Leftmost.stop (h : ¬ (0 < limit ∧ pos ≤ s.length)) : Leftmost cc s pattern anchor limit pos [] := by
  rcases Nat.eq_zero_or_pos limit with hlimit | hlimit
  · exact .inl hlimit
  · exact .inr fun p hp hle _ => absurd ⟨hlimit, Nat.le_trans hp hle⟩ h

theorem Leftmost.skip (hm : matchAt cc s pattern pos = .ok none)
    (h : Leftmost cc s pattern anchor limit (pos + 1) ms) : Leftmost cc s pattern anchor limit pos ms := by
  have hnone {p : ℕ} (hp : pos ≤ p) (hp' : pos + 1 ≤ p → matchAt cc s pattern p = .ok none) :
      matchAt cc s pattern p = .ok none := by
    rcases Nat.eq_or_lt_of_le hp with rfl | hlt
    · exact hm
    · exact hp' hlt
  cases ms with
  | nil => exact h.imp_right fun h p hp hle ha => hnone hp fun hlt => h p hlt hle ha
  | cons m ms =>
    obtain ⟨hlimit, hle, hlen, hanchor, hat, hfirst, hrest⟩ := h
    exact ⟨hlimit, by omega, hlen, hanchor, hat, fun p hp hlt ha => hnone hp fun h => hfirst p h hlt ha, hrest⟩

theorem Leftmost.here (hgo : 0 < limit ∧ pos ≤ s.length) (hanchor : anchor = true → pos = 0)
    (hm : matchAt cc s pattern pos = .ok (some m)) (h : Leftmost cc s pattern anchor (limit - 1) m.next ms) :
    Leftmost cc s pattern anchor limit pos (m :: ms) := by
  obtain rfl := ((matchAt_within cc pattern hgo.2).of_ok hm m rfl).start_eq
  exact ⟨hgo.1, Nat.le_refl _, hgo.2, hanchor, hm, fun p hp hlt => absurd hlt (Nat.not_lt.mpr hp), h⟩

/-- With an anchor there is nothing behind the start of the subject. -/
theorem Leftmost.anchored (limit : ℕ) (hpos : 0 < pos) : Leftmost cc s pattern true limit pos [] :=
  .inr fun p hp _ ha => by have := ha rfl; omega

theorem Leftmost.eq_nil_of_anchored (hpos : 0 < pos) (h : Leftmost cc s pattern true limit pos ms) : ms = [] :=
  h.unique (.anchored limit hpos)

/-- What a position that is tried says about the leftmost matches. -/
theorem Leftmost.attempt (hgo : 0 < limit ∧ pos ≤ s.length) (hanchor : anchor = true → pos = 0)
    (h : Leftmost cc s pattern anchor limit pos ms) :
    (matchAt cc s pattern pos = .ok none ∧ Leftmost cc s pattern anchor limit (pos + 1) ms) ∨
      ∃ m ms', ms = m :: ms' ∧ matchAt cc s pattern pos = .ok (some m) ∧ m.start = pos ∧
        Leftmost cc s pattern anchor (limit - 1) m.next ms' := by
  cases ms with
  | nil =>
    rcases h with rfl | h
    · exact absurd hgo.1 (Nat.lt_irrefl 0)
    · exact .inl ⟨h pos (Nat.le_refl pos) hgo.2 hanchor, .inr fun p hp => h p (by omega)⟩
  | cons m ms =>
    obtain ⟨hlimit, hle, hlen, ha, hm, hfirst, hrest⟩ := h
    rcases Nat.eq_or_lt_of_le hle with rfl | hlt
    · exact .inr ⟨m, ms, rfl, hm, rfl, hrest⟩
    · exact .inl ⟨hfirst pos (Nat.le_refl pos) hlt hanchor, hlimit, hlt, hlen, ha, hm,
        fun p hp => hfirst p (by omega), hrest⟩

theorem drop_eq_cons (s : List UInt8) (pos : ℕ) : s.drop pos = s[pos]?.toList ++ s.drop (pos + 1) := by
  rcases Nat.lt_or_ge pos s.length with h | h
  · rw [List.drop_eq_getElem_cons h, List.getElem?_eq_getElem h]
    rfl
  · rw [List.drop_eq_nil_of_le h, List.drop_eq_nil_of_le (by omega), List.getElem?_eq_none h]
    rfl

/-- A byte that is not in a match is copied. -/
theorem rebuild_skip (h : ∀ m ∈ ms.head?, pos + 1 ≤ m.start) :
    rebuild s pos ms texts = s[pos]?.toList ++ rebuild s (pos + 1) ms texts := by
  cases ms with
  | nil => exact drop_eq_cons s pos
  | cons m ms =>
    cases texts with
    | nil => exact drop_eq_cons s pos
    | cons text texts =>
      have hlt := h m rfl
      rw [rebuild, rebuild]
      rcases Nat.lt_or_ge pos s.length with hpos | hpos
      · rw [List.drop_eq_getElem_cons hpos, List.getElem?_eq_getElem hpos,
          show m.start - pos = m.start - (pos + 1) + 1 by omega]
        rfl
      · rw [List.drop_eq_nil_of_le hpos, List.drop_eq_nil_of_le (by omega : s.length ≤ pos + 1),
          List.getElem?_eq_none hpos, List.take_nil, List.take_nil]
        rfl

end Leftmost

/-! ### The loop -/

section Loop

variable {σ : Type} {cc : CharClasses} {s pattern : List UInt8} {anchor : Bool} {limit : ℕ}
  {replacement : σ → GMatch → Native (List UInt8) × σ} {acc acc' : GsubAcc} {st st' : σ} {m : GMatch}
  {ms : List GMatch} {texts : List (List UInt8)}

theorem GsubAcc.rebuild_skip (h : ∀ m ∈ ms.head?, acc.pos + 1 ≤ m.start) :
    (acc.skip s).result ++ rebuild s (acc.skip s).pos ms texts = acc.result ++ rebuild s acc.pos ms texts := by
  rw [Stdlib.rebuild_skip h, skip, List.append_assoc]

theorem GsubAcc.rebuild_replace (hm : m.start = acc.pos) (h : ∀ m' ∈ ms.head?, m.next ≤ m'.start) (text : List UInt8) :
    (acc.replace s m text).result ++ rebuild s (acc.replace s m text).pos ms texts =
      acc.result ++ rebuild s acc.pos (m :: ms) (text :: texts) := by
  rw [rebuild, hm, Nat.sub_self, List.take_zero, List.nil_append, replace]
  by_cases hempty : m.stop = acc.pos
  · have hnext : m.next = acc.pos + 1 := by rw [GMatch.next, if_pos (hempty.trans hm.symm), hempty]
    rw [hnext] at h
    rw [if_pos hempty, hempty, Stdlib.rebuild_skip h]
    simp only [List.append_assoc]
  · rw [if_neg hempty, List.append_assoc]

theorem GsubAcc.rebuild_skip_last :
    (acc.skip s).result ++ s.drop (acc.skip s).pos = acc.result ++ rebuild s acc.pos [] [] := by
  have h : ∀ m ∈ ([] : List GMatch).head?, acc.pos + 1 ≤ m.start := nofun
  exact GsubAcc.rebuild_skip h

theorem GsubAcc.rebuild_replace_last (hm : m.start = acc.pos) (text : List UInt8) :
    (acc.replace s m text).result ++ s.drop (acc.replace s m text).pos =
      acc.result ++ rebuild s acc.pos [m] [text] := by
  have h : ∀ m' ∈ ([] : List GMatch).head?, m.next ≤ m'.start := nofun
  exact GsubAcc.rebuild_replace hm h text

/-- What the loop returns is the rest of the subject with the leftmost matches replaced. -/
theorem gsubLoop_ok (hanchor : anchor = true → acc.pos = 0)
    (h : gsubLoop cc s pattern anchor limit replacement acc st = (.ok acc', st')) :
    ∃ ms texts, Leftmost cc s pattern anchor (limit - acc.count) acc.pos ms ∧ Replaced replacement st ms texts st' ∧
      acc'.result ++ s.drop acc'.pos = acc.result ++ rebuild s acc.pos ms texts ∧
      acc'.count = acc.count + ms.length := by
  fun_induction gsubLoop cc s pattern anchor limit replacement acc st with
  | case1 => cases h
  | case2 => cases h
  | case3 => cases h
  | case4 => cases h
  | case5 acc st hgo m hm text st₁ hr ha =>
    cases h
    have hw := (matchAt_within cc pattern hgo.2).of_ok hm m rfl
    subst ha
    refine ⟨[m], [text], .here ⟨by omega, hgo.2⟩ hanchor hm (.anchored _ ?_), .cons hr (.nil _), ?_,
      acc.count_replace s m text⟩
    · exact Nat.lt_of_le_of_lt (Nat.zero_le _) hw.lt_next
    · exact GsubAcc.rebuild_replace_last hw.start_eq text
  | case6 acc st hgo m hm text st₁ hr ha ih =>
    have hw := (matchAt_within cc pattern hgo.2).of_ok hm m rfl
    obtain ⟨ms, texts, hms, hreplaced, hresult, hcount⟩ := ih (fun h => absurd h ha) h
    have hcnt := acc.count_replace s m text
    rw [GsubAcc.pos_replace hw.start_eq, hcnt, ← Nat.sub_sub] at hms
    refine ⟨m :: ms, text :: texts, .here ⟨by omega, hgo.2⟩ hanchor hm hms, .cons hr hreplaced,
      hresult.trans (GsubAcc.rebuild_replace hw.start_eq hms.start_ge text), ?_⟩
    rw [hcount, hcnt, List.length_cons]
    omega
  | case7 acc st hgo hm ha =>
    cases h
    subst ha
    exact ⟨[], [], .skip hm (.anchored _ (Nat.succ_pos _)), .nil _,
      GsubAcc.rebuild_skip_last, rfl⟩
  | case8 acc st hgo hm ha ih =>
    obtain ⟨ms, texts, hms, hreplaced, hresult, hcount⟩ := ih (fun h => absurd h ha) h
    exact ⟨ms, texts, .skip hm hms, hreplaced, hresult.trans (GsubAcc.rebuild_skip hms.start_ge), hcount⟩
  | case9 acc st hstop =>
    cases h
    exact ⟨[], [], .stop (by omega), .nil _, rfl, rfl⟩

/-- Where the texts can be had, the loop returns. -/
theorem gsubLoop_of_leftmost (hanchor : anchor = true → acc.pos = 0)
    (hms : Leftmost cc s pattern anchor (limit - acc.count) acc.pos ms) (hreplaced : Replaced replacement st ms texts st') :
    ∃ acc', gsubLoop cc s pattern anchor limit replacement acc st = (.ok acc', st') ∧
      acc'.result ++ s.drop acc'.pos = acc.result ++ rebuild s acc.pos ms texts ∧
      acc'.count = acc.count + ms.length := by
  induction acc, st using gsubLoop.induct cc s pattern anchor limit replacement generalizing ms texts with
  | case9 acc st hstop =>
    obtain rfl : ms = [] := hms.unique (.stop (by omega))
    cases hreplaced
    exact ⟨acc, gsubLoop_stop hstop, rfl, rfl⟩
  | case1 acc st hgo hm => exact absurd hm (matchAt_within cc pattern hgo.2).ne_none
  | case2 acc st hgo e hm =>
    rcases hms.attempt ⟨by omega, hgo.2⟩ hanchor with ⟨hm', -⟩ | ⟨m, ms', -, hm', -⟩
    · exact nomatch hm.symm.trans hm'
    · exact nomatch hm.symm.trans hm'
  | case3 acc st hgo m hm st₁ hr =>
    rcases hms.attempt ⟨by omega, hgo.2⟩ hanchor with ⟨hm', -⟩ | ⟨m, ms', rfl, hm', -⟩
    · exact nomatch hm.symm.trans hm'
    · cases hm.symm.trans hm'
      obtain ⟨text, texts, st₂, -, hr', -⟩ := hreplaced.head_tail
      exact nomatch hr.symm.trans hr'
  | case4 acc st hgo m hm e st₁ hr =>
    rcases hms.attempt ⟨by omega, hgo.2⟩ hanchor with ⟨hm', -⟩ | ⟨m, ms', rfl, hm', -⟩
    · exact nomatch hm.symm.trans hm'
    · cases hm.symm.trans hm'
      obtain ⟨text, texts, st₂, -, hr', -⟩ := hreplaced.head_tail
      exact nomatch hr.symm.trans hr'
  | case5 acc st hgo m hm text st₁ hr ha =>
    rcases hms.attempt ⟨by omega, hgo.2⟩ hanchor with ⟨hm', -⟩ | ⟨m, ms', rfl, hm', hstart, hrest⟩
    · exact nomatch hm.symm.trans hm'
    · cases hm.symm.trans hm'
      have hlt := ((matchAt_within cc pattern hgo.2).of_ok hm m rfl).lt_next
      subst ha
      obtain rfl : ms' = [] := hrest.eq_nil_of_anchored (Nat.lt_of_le_of_lt (Nat.zero_le _) hlt)
      obtain ⟨text, texts, st₂, rfl, hr', htail⟩ := hreplaced.head_tail
      cases hr.symm.trans hr'
      cases htail
      exact ⟨_, by rw [gsubLoop_replace hgo hm hr, if_pos rfl],
        GsubAcc.rebuild_replace_last hstart text, acc.count_replace s m text⟩
  | case6 acc st hgo m hm text st₁ hr ha ih =>
    rcases hms.attempt ⟨by omega, hgo.2⟩ hanchor with ⟨hm', -⟩ | ⟨m, ms', rfl, hm', hstart, hrest⟩
    · exact nomatch hm.symm.trans hm'
    · cases hm.symm.trans hm'
      obtain ⟨text, texts, st₂, rfl, hr', htail⟩ := hreplaced.head_tail
      cases hr.symm.trans hr'
      have hcnt := acc.count_replace s m text
      have hnext := GsubAcc.pos_replace (s := s) hstart text
      have hge := hrest.start_ge
      rw [Nat.sub_sub, ← hcnt, ← hnext] at hrest
      obtain ⟨acc', hloop, hresult, hcount⟩ := ih (fun h => absurd h ha) hrest htail
      refine ⟨acc', ?_, hresult.trans (GsubAcc.rebuild_replace hstart hge text), ?_⟩
      · rw [gsubLoop_replace hgo hm hr, if_neg ha, hloop]
      · rw [hcount, hcnt, List.length_cons]
        omega
  | case7 acc st hgo hm ha =>
    rcases hms.attempt ⟨by omega, hgo.2⟩ hanchor with ⟨-, hrest⟩ | ⟨m, ms', -, hm', -⟩
    · subst ha
      obtain rfl : ms = [] := hrest.eq_nil_of_anchored (Nat.succ_pos _)
      cases hreplaced
      exact ⟨_, by rw [gsubLoop_skip hgo hm, if_pos rfl], GsubAcc.rebuild_skip_last, rfl⟩
    · exact nomatch hm.symm.trans hm'
  | case8 acc st hgo hm ha ih =>
    rcases hms.attempt ⟨by omega, hgo.2⟩ hanchor with ⟨-, hrest⟩ | ⟨m, ms', -, hm', -⟩
    · obtain ⟨acc', hloop, hresult, hcount⟩ := ih (fun h => absurd h ha) hrest hreplaced
      exact ⟨acc', by rw [gsubLoop_skip hgo hm, if_neg ha, hloop],
        hresult.trans (GsubAcc.rebuild_skip hrest.start_ge), hcount⟩
    · exact nomatch hm.symm.trans hm'

/-- The loop does not panic if the replacement does not, and it raises an error only where the matcher or the
    replacement raises it. -/
theorem gsubLoop_outcome (htotal : ∀ st m, m.Within s m.start → (replacement st m).1 ≠ none) :
    (gsubLoop cc s pattern anchor limit replacement acc st).1 ≠ none ∧
      ∀ e, (gsubLoop cc s pattern anchor limit replacement acc st).1 = .error e →
        (∃ pos ≤ s.length, matchAt cc s pattern pos = .error e) ∨
          ∃ st m, m.Within s m.start ∧ (replacement st m).1 = .error e := by
  fun_induction gsubLoop cc s pattern anchor limit replacement acc st with
  | case1 acc st hgo hm => exact absurd hm (matchAt_within cc pattern hgo.2).ne_none
  | case2 acc st hgo e hm =>
    refine ⟨nofun, fun e' he => ?_⟩
    cases he
    exact .inl ⟨acc.pos, hgo.2, hm⟩
  | case3 acc st hgo m hm st' hr =>
    have hw := (matchAt_within cc pattern hgo.2).of_ok hm m rfl
    exact absurd (congrArg Prod.fst hr) (htotal st m (hw.start_eq.symm ▸ hw))
  | case4 acc st hgo m hm e st' hr =>
    have hw := (matchAt_within cc pattern hgo.2).of_ok hm m rfl
    refine ⟨nofun, fun e' he => ?_⟩
    cases he
    exact .inr ⟨st, m, hw.start_eq.symm ▸ hw, congrArg Prod.fst hr⟩
  | case5 => exact ⟨nofun, nofun⟩
  | case6 acc st hgo m hm text st' hr hanchor ih => exact ih
  | case7 => exact ⟨nofun, nofun⟩
  | case8 acc st hgo hm hanchor ih => exact ih
  | case9 => exact ⟨nofun, nofun⟩

end Loop

/-! ### The rule of Lua 5.1 -/

/-- A replacement string expanded by the rule of Lua 5.1: `%` and a digit stand for a capture, and `%` and any other
    character for that character. A `%` at the end has no character behind it, and stands for itself. -/
def expandLua (s : List UInt8) (m : GMatch) : List UInt8 → Native (List UInt8)
  | [] => .ok []
  | [b] => .ok [b]
  | b :: next :: rest =>
    if b ≠ ch '%' then (expandLua s m (next :: rest)).bind fun result => .ok (b :: result)
    else if isAsciiDigit next = true then
      (captureText s m (next.toNat - (ch '0').toNat)).bind fun text =>
        (expandLua s m rest).bind fun result => .ok (text ++ result)
    else (expandLua s m rest).bind fun result => .ok (next :: result)

/-- The part of the subject that the match covers. -/
def wholeMatch (s : List UInt8) (m : GMatch) : List UInt8 := (s.drop m.start).take (m.stop - m.start)

/-- The text that a value stands for: nothing and false keep the match. -/
def luaText (host : StringHost) (s : List UInt8) (m : GMatch) : LuaVal → List UInt8
  | .nil => wholeMatch s m
  | .bool false => wholeMatch s m
  | .str bytes => bytes
  | val => host.display val

/-- The text of the value that the machine gives for an argument. -/
def luaTextBy {σ α : Type} (host : StringHost) (s : List UInt8) (m : GMatch) (st : σ) (arg : Native α)
    (call : α → Except LuaError LuaVal × σ) : Native (List UInt8) × σ :=
  match arg with
  | none => (none, st)
  | some (.error e) => (.error e, st)
  | some (.ok a) =>
    match call a with
    | (.error e, st) => (.error e, st)
    | (.ok val, st) => (.ok (luaText host s m val), st)

/-- The replacement of a match by Lua 5.1's rule. A number is replaced by its text. Of a value that is no string,
    number, table or function nothing is said: it keeps the match. -/
def luaReplacement {σ : Type} (host : StringHost) (machine : GsubHost σ) (s : List UInt8) (repl : LuaVal) (st : σ)
    (m : GMatch) : Native (List UInt8) × σ :=
  match repl with
  | .str bytes => (expandLua s m bytes, st)
  | .num n => (expandLua s m (host.display (.num n)), st)
  | .table r => luaTextBy host s m st (replacementKey s m) (machine.gettable st r)
  | .function r => luaTextBy host s m st (matchValues s m) (machine.callFunction st r)
  | _ => (.ok (wholeMatch s m), st)

/-- Whether a replacement string has an escape of a character that is neither a digit nor `%`. -/
def hasBadEscape : List UInt8 → Bool
  | [] => false
  | [_] => false
  | b :: next :: rest =>
    if b ≠ ch '%' then hasBadEscape (next :: rest)
    else if isAsciiDigit next = true ∨ next = ch '%' then hasBadEscape rest
    else true

/-! ### The code's replacement and the rule -/

section Replacement

variable {σ : Type} {host : StringHost} {machine : GsubHost σ} {s : List UInt8} {m : GMatch} {pos : ℕ} {st : σ}

theorem cut_wholeMatch (h : m.Within s pos) : cut s m.start m.stop = some (wholeMatch s m) :=
  cut_eq_some (h.start_eq ▸ h.le_stop) h.stop_le

/-- Two expansions of one string: they panic or raise an error together, and the first writes a byte more for every bad
    escape. -/
inductive Alike (bad : Bool) : Native (List UInt8) → Native (List UInt8) → Prop where
  | panic : Alike bad none none
  | error (e : LuaError) : Alike bad (.error e) (.error e)
  | same (h : bad = false) (text : List UInt8) : Alike bad (.ok text) (.ok text)
  | longer {text text' : List UInt8} (h : bad = true) (hlt : text'.length < text.length) :
      Alike bad (.ok text) (.ok text')

/-- The same text in front of both. -/
theorem Alike.append {bad : Bool} {x y : Native (List UInt8)} (h : Alike bad x y) (text : List UInt8) :
    Alike bad (x.bind fun result => .ok (text ++ result)) (y.bind fun result => .ok (text ++ result)) := by
  cases h with
  | panic => exact .panic
  | error e => exact .error e
  | same h t => exact .same h _
  | longer h hlt =>
    refine .longer h ?_
    rw [List.length_append, List.length_append]
    omega

theorem Alike.bind {bad : Bool} (x : Native (List UInt8)) {f g : List UInt8 → Native (List UInt8)}
    (h : ∀ text, Alike bad (f text) (g text)) : Alike bad (x.bind f) (x.bind g) := by
  rcases x with _ | e | text
  · exact .panic
  · exact .error e
  · exact h text

/-- A byte more in front of the first. -/
theorem Alike.extra {bad : Bool} {x y : Native (List UInt8)} (h : Alike bad x y) (b : UInt8) :
    Alike true (x.bind fun result => .ok (b :: result)) y := by
  cases h with
  | panic => exact .panic
  | error e => exact .error e
  | same h t => exact .longer rfl (Nat.lt_succ_self _)
  | longer h hlt => exact .longer rfl (Nat.lt_succ_of_lt hlt)

/-- A character that is no `%` stands for itself. -/
theorem expandReplacement_cons {b : UInt8} (h : b ≠ ch '%') (rest : List UInt8) :
    expandReplacement s m (b :: rest) = (expandReplacement s m rest).bind fun result => .ok (b :: result) := by
  cases rest with
  | nil => rfl
  | cons next rest => rw [expandReplacement, if_neg (fun hb => h hb.1), if_neg (fun hb => h hb.1)]

/-- The code's expansion and the rule's differ by the `%` of every bad escape. -/
theorem expandReplacement_alike (s : List UInt8) (m : GMatch) (bytes : List UInt8) :
    Alike (hasBadEscape bytes) (expandReplacement s m bytes) (expandLua s m bytes) := by
  fun_induction expandLua s m bytes with
  | case1 => exact .same rfl _
  | case2 b => exact .same rfl _
  | case3 b next rest hb ih =>
    rw [expandReplacement_cons hb, hasBadEscape, if_pos hb]
    exact ih.append [b]
  | case4 b next rest hb hdigit ih =>
    have hb := not_not.mp hb
    rw [expandReplacement, if_pos ⟨hb, hdigit⟩, hasBadEscape, if_neg (not_not.mpr hb), if_pos (.inl hdigit)]
    exact .bind _ fun text => ih.append text
  | case5 b next rest hb hdigit ih =>
    have hb := not_not.mp hb
    by_cases hnext : next = ch '%'
    · rw [expandReplacement, if_neg (fun h => hdigit h.2), if_pos ⟨hb, hnext⟩, hasBadEscape, if_neg (not_not.mpr hb),
        if_pos (.inr hnext), hnext]
      exact ih.append [ch '%']
    · rw [expandReplacement, if_neg (fun h => hdigit h.2), if_neg (fun h => hnext h.2), expandReplacement_cons hnext,
        hasBadEscape, if_neg (not_not.mpr hb), if_neg (not_or.mpr ⟨hdigit, hnext⟩)]
      exact (ih.append [next]).extra b

theorem valToReplacement_eq (host : StringHost) (h : m.Within s pos) (val : LuaVal) :
    valToReplacement host s m val = .ok (luaText host s m val) := by
  have hcut : (cut s m.start m.stop).map Except.ok = (Native.ok (wholeMatch s m) : Native (List UInt8)) := by
    rw [cut_wholeMatch h]
    rfl
  cases val with
  | nil => exact hcut
  | bool b =>
    cases b with
    | false => exact hcut
    | true => rfl
  | _ => rfl

theorem replaceBy_eq {α : Type} (host : StringHost) (h : m.Within s pos) (st : σ) (arg : Native α)
    (call : α → Except LuaError LuaVal × σ) : replaceBy host s m st arg call = luaTextBy host s m st arg call := by
  rcases arg with _ | e | a
  · rfl
  · rfl
  · rcases hc : call a with ⟨e | val, next⟩
    · simp only [replaceBy, luaTextBy, hc]
    · simp only [replaceBy, luaTextBy, hc, valToReplacement_eq host h]

theorem captureText_total (h : m.Within s pos) (n : ℕ) : captureText s m n ≠ none := by
  have hwhole : (cut s m.start m.stop).map Except.ok ≠ (none : Native (List UInt8)) := by
    rw [cut_wholeMatch h]
    exact Option.some_ne_none _
  rw [captureText]
  split
  · exact hwhole
  · split
    · split
      · exact hwhole
      · exact Option.some_ne_none _
    · next cap hcap =>
      have hend := (h.captures cap (List.mem_of_getElem? hcap)).2.2
      have hstop := h.stop_le
      split
      · next len hlen =>
        have := hend len hlen
        rw [cut_eq_some (Nat.le_add_right _ _) (by omega)]
        exact Option.some_ne_none _
      · exact Option.some_ne_none _
      · exact Option.some_ne_none _

theorem Native.bind_ne_none {α β : Type} {x : Native α} {f : α → Native β} (hx : x ≠ none) (hf : ∀ a, f a ≠ none) :
    x.bind f ≠ none := by
  rcases x with _ | e | a
  · exact absurd rfl hx
  · exact Option.some_ne_none _
  · exact hf a

theorem expandReplacement_total (h : m.Within s pos) (bytes : List UInt8) : expandReplacement s m bytes ≠ none := by
  fun_induction expandReplacement s m bytes with
  | case1 => exact Option.some_ne_none _
  | case2 b => exact Option.some_ne_none _
  | case3 b next rest hdigit ih =>
    exact Native.bind_ne_none (captureText_total h _) fun text => Native.bind_ne_none ih fun _ => Option.some_ne_none _
  | case4 b next rest hdigit hpercent ih => exact Native.bind_ne_none ih fun _ => Option.some_ne_none _
  | case5 b next rest hdigit hpercent ih => exact Native.bind_ne_none ih fun _ => Option.some_ne_none _

theorem luaTextBy_total {α : Type} {arg : Native α} (harg : arg ≠ none) (st : σ)
    (call : α → Except LuaError LuaVal × σ) : (luaTextBy host s m st arg call).1 ≠ none := by
  rcases arg with _ | e | a
  · exact absurd rfl harg
  · exact Option.some_ne_none _
  · rcases hc : call a with ⟨e | val, next⟩
    · simp only [luaTextBy, hc]
      exact Option.some_ne_none _
    · simp only [luaTextBy, hc]
      exact Option.some_ne_none _

theorem replacementKey_total (h : m.Within s pos) : replacementKey s m ≠ none := by
  rw [replacementKey]
  split
  · rw [cut_wholeMatch h]
    exact Option.some_ne_none _
  · next cap caps hcaps =>
    obtain ⟨-, hstart, hend⟩ := h.captures cap (hcaps ▸ List.mem_cons_self)
    exact (getCaptureVal_within h.stop_le hstart hend).ne_none

/-- Neither a string nor a number. -/
def isNoText : LuaVal → Bool
  | .str _ => false
  | .num _ => false
  | _ => true

/-- But for a string and a number the code follows the rule. -/
theorem getGsubReplacement_eq (h : m.Within s pos) {repl : LuaVal} (hrepl : isNoText repl = true) (st : σ) :
    getGsubReplacement host machine s repl st m = luaReplacement host machine s repl st m := by
  have hcut : ((cut s m.start m.stop).map Except.ok, st) = ((Native.ok (wholeMatch s m) : Native (List UInt8)), st) := by
    rw [cut_wholeMatch h]
    rfl
  cases repl with
  | str bytes => cases hrepl
  | num n => cases hrepl
  | table r => exact replaceBy_eq host h st _ _
  | function r => exact replaceBy_eq host h st _ _
  | _ => exact hcut

theorem getGsubReplacement_total (h : m.Within s pos) (repl : LuaVal) (st : σ) :
    (getGsubReplacement host machine s repl st m).1 ≠ none := by
  cases repl with
  | str bytes => exact expandReplacement_total h bytes
  | num n =>
    change (cut s m.start m.stop).map _ ≠ none
    rw [cut_wholeMatch h]
    exact Option.some_ne_none _
  | table r =>
    rw [getGsubReplacement_eq h rfl]
    exact luaTextBy_total (replacementKey_total h) st _
  | function r =>
    rw [getGsubReplacement_eq h rfl]
    exact luaTextBy_total (matchValues_within h).ne_none st _
  | _ =>
    rw [getGsubReplacement_eq h rfl]
    exact Option.some_ne_none _

/-- An error of the code's replacement is one of the rule's. -/
theorem luaReplacement_error (h : m.Within s pos) {repl : LuaVal} {e : LuaError}
    (he : (getGsubReplacement host machine s repl st m).1 = .error e) :
    (luaReplacement host machine s repl st m).1 = .error e := by
  cases repl with
  | str bytes =>
    have halike := expandReplacement_alike s m bytes
    change expandReplacement s m bytes = _ at he
    rw [he] at halike
    change expandLua s m bytes = _
    generalize expandLua s m bytes = x at halike
    cases halike
    rfl
  | num n =>
    change (cut s m.start m.stop).map _ = _ at he
    rw [cut_wholeMatch h] at he
    cases he
  | _ => rwa [getGsubReplacement_eq h rfl] at he

end Replacement

/-! ### Replacing all matches -/

section Replaced

variable {σ : Type} {host : StringHost} {machine : GsubHost σ} {s : List UInt8} {ms : List GMatch}
  {r r' : σ → GMatch → Native (List UInt8) × σ} {st st' : σ} {texts texts' : List (List UInt8)}

theorem Replaced.unique {st₂ : σ} (h : Replaced r st ms texts st') (h' : Replaced r st ms texts' st₂) :
    texts = texts' ∧ st' = st₂ := by
  induction h generalizing texts' with
  | nil st =>
    cases h'
    exact ⟨rfl, rfl⟩
  | cons head tail ih =>
    obtain ⟨text, texts'', st₁, rfl, head', tail'⟩ := h'.head_tail
    cases head.symm.trans head'
    obtain ⟨rfl, rfl⟩ := ih tail'
    exact ⟨rfl, rfl⟩

theorem Replaced.congr (h : Replaced r st ms texts st') (heq : ∀ st, ∀ m ∈ ms, r st m = r' st m) :
    Replaced r' st ms texts st' := by
  induction h with
  | nil st => exact .nil st
  | cons head tail ih =>
    refine .cons (heq _ _ List.mem_cons_self ▸ head) (ih fun st m hm => heq st m (List.mem_cons_of_mem _ hm))

/-- A replacement that does not use the machine gives every match its text. -/
theorem replaced_iff {f : GMatch → Native (List UInt8)} (hr : ∀ st m, r st m = (f m, st)) :
    Replaced r st ms texts st' ↔ st' = st ∧ List.Forall₂ (fun m text => f m = .ok text) ms texts := by
  constructor
  · intro h
    induction h with
    | nil st => exact ⟨rfl, .nil⟩
    | cons head tail ih =>
      rw [hr] at head
      obtain ⟨htext, rfl⟩ := Prod.mk.inj head
      obtain ⟨rfl, htail⟩ := ih
      exact ⟨rfl, .cons htext htail⟩
  · rintro ⟨rfl, h⟩
    induction h with
    | nil => exact .nil _
    | cons head tail ih => exact .cons ((hr _ _).trans (congrArg (·, _) head)) ih

/-- A subject whose matches are all kept is as before. -/
theorem rebuild_wholeMatch {cc : CharClasses} {pattern : List UInt8} {anchor : Bool} {limit pos pos' : ℕ}
    (h : Leftmost cc s pattern anchor limit pos' ms) (hpos : pos ≤ pos') :
    rebuild s pos ms (ms.map (wholeMatch s)) = s.drop pos := by
  induction ms generalizing limit pos pos' with
  | nil => rfl
  | cons m ms ih =>
    have hw := h.within m List.mem_cons_self
    obtain ⟨-, hle, -, -, -, -, hrest⟩ := h
    have hstop := hw.le_stop
    have hnext : m.stop ≤ m.next := by
      rw [GMatch.next]
      split <;> omega
    rw [List.map_cons, rebuild, ih hrest hnext, wholeMatch, List.append_assoc]
    calc (s.drop pos).take (m.start - pos) ++ ((s.drop m.start).take (m.stop - m.start) ++ s.drop m.stop)
        = (s.drop pos).take (m.start - pos) ++ s.drop m.start := by
          congr 1
          conv_rhs => rw [← List.take_append_drop (m.stop - m.start) (s.drop m.start)]
          rw [List.drop_drop, Nat.add_sub_cancel' hstop]
      _ = s.drop pos := by
          conv_rhs => rw [← List.take_append_drop (m.start - pos) (s.drop pos)]
          rw [List.drop_drop, Nat.add_sub_cancel' (by omega : pos ≤ m.start)]

/-- Longer texts make a longer result. -/
theorem length_rebuild_lt (h : List.Forall₂ (fun text text' : List UInt8 => text'.length < text.length) texts texts')
    (hlen : ms.length = texts.length) (hne : ms ≠ []) (pos : ℕ) :
    (rebuild s pos ms texts').length < (rebuild s pos ms texts).length := by
  induction h generalizing ms pos with
  | nil => exact absurd (List.eq_nil_of_length_eq_zero hlen) hne
  | @cons text text' texts texts' hlt htail ih =>
    cases ms with
    | nil => exact absurd rfl hne
    | cons m ms =>
      have hle : (rebuild s m.stop ms texts').length ≤ (rebuild s m.stop ms texts).length := by
        by_cases hnil : ms = []
        · rw [hnil]
          exact Nat.le_of_eq (by rfl)
        · exact Nat.le_of_lt (ih (Nat.succ.inj hlen) hnil m.stop)
      rw [rebuild, rebuild]
      simp only [List.length_append]
      omega

end Replaced

/-! ### The call -/

section Call

variable {σ : Type} {host : StringHost} {machine : GsubHost σ} {cc : CharClasses} {a : GsubArgs} {st st' : σ}

/-- The matches that a call replaces. -/
abbrev GsubArgs.Matches (cc : CharClasses) (a : GsubArgs) (ms : List GMatch) : Prop :=
  Leftmost cc a.s (patternOf a.pat) (isAnchored a.pat) a.maxReplacements 0 ms

/-- What a call should do: it does not panic, it raises the errors of the matcher and of the replacement only, and what
    it returns is the subject with the leftmost matches replaced by Lua 5.1's rule, and their number. -/
structure GsubExact (host : StringHost) (machine : GsubHost σ) (cc : CharClasses) (a : GsubArgs) (st : σ)
    (outcome : Native (List UInt8 × ℕ) × σ) : Prop where
  total : outcome.1 ≠ none
  raised : ∀ e, outcome.1 = .error e →
    (∃ pos ≤ a.s.length, matchAt cc a.s (patternOf a.pat) pos = .error e) ∨
      ∃ st m, (luaReplacement host machine a.s a.repl st m).1 = .error e
  rebuilt : ∀ result n, outcome.1 = .ok (result, n) → ∃ ms texts, a.Matches cc ms ∧
    Replaced (luaReplacement host machine a.s a.repl) st ms texts outcome.2 ∧ result = rebuild a.s 0 ms texts ∧
      n = ms.length

/-- When the code's replacement makes no difference: no match is replaced by a string with a bad escape, and replacing
    the matches by the text of a number changes nothing. -/
def GsubAgrees (host : StringHost) (machine : GsubHost σ) (cc : CharClasses) (a : GsubArgs) (st : σ) : Prop :=
  match a.repl with
  | .str bytes => hasBadEscape bytes = true → ∀ ms texts st', a.Matches cc ms →
      Replaced (luaReplacement host machine a.s a.repl) st ms texts st' → ms = []
  | .num _ => ∀ ms, a.Matches cc ms → ∃ texts st', Replaced (luaReplacement host machine a.s a.repl) st ms texts st' ∧
      rebuild a.s 0 ms texts = a.s
  | _ => True

theorem gsub_ok {r : σ → GMatch → Native (List UInt8) × σ} {result : List UInt8} {n : ℕ}
    (h : (gsub cc a r st).1 = .ok (result, n)) :
    ∃ ms texts, a.Matches cc ms ∧ Replaced r st ms texts (gsub cc a r st).2 ∧ result = rebuild a.s 0 ms texts ∧
      n = ms.length := by
  rw [gsub] at h ⊢
  rcases hloop : gsubLoop cc a.s (patternOf a.pat) (isAnchored a.pat) a.maxReplacements r ⟨[], 0, 0⟩ st with ⟨_ | e | acc, st'⟩
  · rw [hloop] at h
    cases h
  · rw [hloop] at h
    cases h
  · rw [hloop] at h
    cases h
    obtain ⟨ms, texts, hms, hreplaced, hresult, hcount⟩ := gsubLoop_ok (fun _ => rfl) hloop
    exact ⟨ms, texts, hms, hreplaced, hresult, hcount.trans (Nat.zero_add _)⟩

theorem gsub_of_matches {r : σ → GMatch → Native (List UInt8) × σ} {ms : List GMatch} {texts : List (List UInt8)}
    (hms : a.Matches cc ms) (hreplaced : Replaced r st ms texts st') :
    gsub cc a r st = (.ok (rebuild a.s 0 ms texts, ms.length), st') := by
  obtain ⟨acc, hloop, hresult, hcount⟩ : ∃ acc, gsubLoop cc a.s (patternOf a.pat) (isAnchored a.pat) a.maxReplacements r
      ⟨[], 0, 0⟩ st = (.ok acc, st') ∧ acc.result ++ a.s.drop acc.pos = [] ++ rebuild a.s 0 ms texts ∧
        acc.count = 0 + ms.length := gsubLoop_of_leftmost (fun _ => rfl) hms hreplaced
  rw [gsub, hloop]
  change (Native.ok (acc.result ++ a.s.drop acc.pos, acc.count), st') = _
  rw [hresult, hcount, Nat.zero_add]
  rfl

theorem gsub_outcome (host : StringHost) (machine : GsubHost σ) (cc : CharClasses) (a : GsubArgs) (st : σ) :
    (gsub cc a (getGsubReplacement host machine a.s a.repl) st).1 ≠ none ∧
      ∀ e, (gsub cc a (getGsubReplacement host machine a.s a.repl) st).1 = .error e →
        (∃ pos ≤ a.s.length, matchAt cc a.s (patternOf a.pat) pos = .error e) ∨
          ∃ st m, (luaReplacement host machine a.s a.repl st m).1 = .error e := by
  have htotal : ∀ (st : σ) m, m.Within a.s m.start → (getGsubReplacement host machine a.s a.repl st m).1 ≠ none :=
    fun st m h => getGsubReplacement_total h a.repl st
  rw [gsub]
  rcases hloop : gsubLoop cc a.s (patternOf a.pat) (isAnchored a.pat) a.maxReplacements
    (getGsubReplacement host machine a.s a.repl) ⟨[], 0, 0⟩ st with ⟨_ | e | acc, st'⟩
  · exact absurd (congrArg Prod.fst hloop) (gsubLoop_outcome htotal).1
  · refine ⟨nofun, fun e' he => ?_⟩
    cases he
    rcases (gsubLoop_outcome htotal).2 e (congrArg Prod.fst hloop) with hm | ⟨st, m, hw, hr⟩
    · exact .inl hm
    · exact .inr ⟨st, m, luaReplacement_error hw hr⟩
  · exact ⟨nofun, nofun⟩

/-! ### String and number -/

/-- The rule can replace the matches where the code can, and the other way round. -/
theorem replaced_string {bytes : List UInt8} {s : List UInt8} {ms : List GMatch} (hgood : hasBadEscape bytes = false)
    {texts : List (List UInt8)} :
    Replaced (getGsubReplacement host machine s (.str bytes)) st ms texts st' ↔
      Replaced (luaReplacement host machine s (.str bytes)) st ms texts st' := by
  have hsame : getGsubReplacement host machine s (.str bytes) = luaReplacement host machine s (.str bytes) := by
    funext st m
    have halike := expandReplacement_alike s m bytes
    rw [hgood] at halike
    change (expandReplacement s m bytes, st) = (expandLua s m bytes, st)
    generalize expandReplacement s m bytes = x, expandLua s m bytes = y at halike
    cases halike with
    | longer h => cases h
    | _ => rfl
  rw [hsame]

/-- With a bad escape the code's texts are longer. -/
theorem replaced_bad_string {bytes : List UInt8} {s : List UInt8} {ms : List GMatch} (hbad : hasBadEscape bytes = true)
    {texts : List (List UInt8)} (h : Replaced (luaReplacement host machine s (.str bytes)) st ms texts st') :
    ∃ texts', Replaced (getGsubReplacement host machine s (.str bytes)) st ms texts' st' ∧
      List.Forall₂ (fun text text' : List UInt8 => text'.length < text.length) texts' texts ∧
      ms.length = texts'.length := by
  obtain ⟨rfl, htexts⟩ := (replaced_iff (f := fun m => expandLua s m bytes) fun _ _ => rfl).mp h
  clear h
  induction htexts with
  | nil => exact ⟨[], .nil _, .nil, rfl⟩
  | @cons m text ms texts head tail ih =>
    obtain ⟨texts', hreplaced, hlonger, hlen⟩ := ih
    have halike := expandReplacement_alike s m bytes
    rw [hbad, head] at halike
    rcases hx : expandReplacement s m bytes with _ | e | text'
    · rw [hx] at halike
      cases halike
    · rw [hx] at halike
      cases halike
    · rw [hx] at halike
      cases halike with
      | same h => cases h
      | longer _ hlt =>
        exact ⟨text' :: texts', .cons (congrArg (·, _) hx) hreplaced, .cons hlt hlonger, congrArg Nat.succ hlen⟩

theorem bad_string_of_code {bytes : List UInt8} {s : List UInt8} {ms : List GMatch} {texts : List (List UInt8)}
    (h : Replaced (getGsubReplacement host machine s (.str bytes)) st ms texts st') :
    ∃ texts', Replaced (luaReplacement host machine s (.str bytes)) st ms texts' st' := by
  obtain ⟨rfl, htexts⟩ := (replaced_iff (f := fun m => expandReplacement s m bytes) fun _ _ => rfl).mp h
  clear h
  induction htexts with
  | nil => exact ⟨[], .nil _⟩
  | @cons m text ms texts head tail ih =>
    obtain ⟨texts', hreplaced⟩ := ih
    have halike := expandReplacement_alike s m bytes
    rw [head] at halike
    rcases hx : expandLua s m bytes with _ | e | text'
    · rw [hx] at halike
      cases halike
    · rw [hx] at halike
      cases halike
    · exact ⟨text' :: texts', .cons (congrArg (·, _) hx) hreplaced⟩

/-- The code keeps the matches that a number should replace. -/
theorem replaced_number {n : Lib.F64} {s : List UInt8} {ms : List GMatch} (hms : ∀ m ∈ ms, m.Within s m.start) :
    Replaced (getGsubReplacement host machine s (.num n)) st ms (ms.map (wholeMatch s)) st := by
  induction ms with
  | nil => exact .nil st
  | cons m ms ih =>
    refine .cons ?_ (ih fun m hm => hms m (List.mem_cons_of_mem _ hm))
    change ((cut s m.start m.stop).map Except.ok, st) = _
    rw [cut_wholeMatch (hms m List.mem_cons_self)]
    rfl

theorem rebuild_number {n : Lib.F64} {ms : List GMatch} {texts : List (List UInt8)} (hms : a.Matches cc ms)
    (h : Replaced (getGsubReplacement host machine a.s (.num n)) st ms texts st') :
    rebuild a.s 0 ms texts = a.s ∧ st' = st := by
  obtain ⟨rfl, rfl⟩ := h.unique (replaced_number hms.within)
  exact ⟨rebuild_wholeMatch hms (Nat.le_refl 0), rfl⟩

/-! ### When the call does what it should -/

/-- All that matters is that the code's texts and the rule's give the same result. -/
theorem gsubExact_iff :
    GsubExact host machine cc a st (gsub cc a (getGsubReplacement host machine a.s a.repl) st) ↔
      ∀ ms texts st', a.Matches cc ms → Replaced (getGsubReplacement host machine a.s a.repl) st ms texts st' →
        ∃ texts', Replaced (luaReplacement host machine a.s a.repl) st ms texts' st' ∧
          rebuild a.s 0 ms texts = rebuild a.s 0 ms texts' := by
  constructor
  · rintro ⟨-, -, hrebuilt⟩ ms texts st' hms hreplaced
    rw [gsub_of_matches hms hreplaced] at hrebuilt
    obtain ⟨ms', texts', hms', hreplaced', hresult, -⟩ := hrebuilt _ _ rfl
    obtain rfl := hms.unique hms'
    exact ⟨texts', hreplaced', hresult⟩
  · intro h
    obtain ⟨htotal, hraised⟩ := gsub_outcome host machine cc a st
    refine ⟨htotal, hraised, fun result n hresult => ?_⟩
    obtain ⟨ms, texts, hms, hreplaced, rfl, hn⟩ := gsub_ok hresult
    obtain ⟨texts', hreplaced', heq⟩ := h ms texts _ hms hreplaced
    exact ⟨ms, texts', hms, hreplaced', heq, hn⟩

theorem gsubExact_string_iff {bytes : List UInt8} (hrepl : a.repl = .str bytes) :
    GsubExact host machine cc a st (gsub cc a (getGsubReplacement host machine a.s a.repl) st) ↔
      (hasBadEscape bytes = true → ∀ ms texts st', a.Matches cc ms →
        Replaced (luaReplacement host machine a.s a.repl) st ms texts st' → ms = []) := by
  rw [gsubExact_iff, hrepl]
  cases hbad : hasBadEscape bytes with
  | false =>
    refine ⟨fun _ h => (nomatch h), fun _ ms texts st' _ hreplaced => ⟨texts, ?_, rfl⟩⟩
    exact (replaced_string hbad).mp hreplaced
  | true =>
    constructor
    · intro h _ ms texts st' hms hreplaced
      obtain ⟨longer, hcode, hlonger, hlen⟩ := replaced_bad_string hbad hreplaced
      obtain ⟨texts', hreplaced', heq⟩ := h ms longer st' hms hcode
      obtain ⟨rfl, -⟩ := hreplaced.unique hreplaced'
      by_contra hne
      have hlt := length_rebuild_lt (s := a.s) hlonger hlen hne 0
      rw [heq] at hlt
      exact Nat.lt_irrefl _ hlt
    · intro h ms texts st' hms hreplaced
      obtain ⟨texts', hreplaced'⟩ := bad_string_of_code hreplaced
      obtain rfl := h rfl ms texts' st' hms hreplaced'
      cases hreplaced
      exact ⟨[], .nil _, rfl⟩

theorem gsubExact_number_iff {n : Lib.F64} (hrepl : a.repl = .num n) :
    GsubExact host machine cc a st (gsub cc a (getGsubReplacement host machine a.s a.repl) st) ↔
      ∀ ms, a.Matches cc ms → ∃ texts st', Replaced (luaReplacement host machine a.s a.repl) st ms texts st' ∧
        rebuild a.s 0 ms texts = a.s := by
  rw [gsubExact_iff, hrepl]
  constructor
  · intro h ms hms
    have hcode : Replaced (getGsubReplacement host machine a.s (.num n)) st ms (ms.map (wholeMatch a.s)) st :=
      replaced_number hms.within
    obtain ⟨texts, hreplaced, heq⟩ := h ms _ st hms hcode
    exact ⟨texts, st, hreplaced, heq.symm.trans (rebuild_number hms hcode).1⟩
  · intro h ms texts st' hms hreplaced
    obtain ⟨hkept, rfl⟩ := rebuild_number hms hreplaced
    obtain ⟨texts', st'', hreplaced', heq⟩ := h ms hms
    obtain ⟨rfl, -⟩ := (replaced_iff (f := fun m => expandLua a.s m (host.display (.num n))) fun _ _ => rfl).mp hreplaced'
    exact ⟨texts', hreplaced', hkept.trans heq.symm⟩

theorem gsubExact_of_noText (hrepl : isNoText a.repl = true) :
    GsubExact host machine cc a st (gsub cc a (getGsubReplacement host machine a.s a.repl) st) := by
  refine gsubExact_iff.mpr fun ms texts st' hms hreplaced => ⟨texts, ?_, rfl⟩
  exact hreplaced.congr fun st m hm => getGsubReplacement_eq (hms.within m hm) hrepl st

/-- What a call of `string.gsub` does is as it should be in exactly the cases where the code's replacement makes no
    difference. -/
theorem gsub_exact_iff (host : StringHost) (machine : GsubHost σ) (cc : CharClasses) (args : List LuaVal) (st : σ) :
    (∀ a, gsubArgs host args = .ok a → GsubExact host machine cc a st (strGsub host machine cc args st)) ↔
      ∀ a, gsubArgs host args = .ok a → GsubAgrees host machine cc a st := by
  refine forall₂_congr fun a ha => ?_
  have hcall : strGsub host machine cc args st = gsub cc a (getGsubReplacement host machine a.s a.repl) st := by
    rw [strGsub, ha]
  rw [hcall, GsubAgrees]
  split
  · next bytes hrepl => exact gsubExact_string_iff hrepl
  · next n hrepl => exact gsubExact_number_iff hrepl
  · next hstr hnum =>
    refine iff_of_true (gsubExact_of_noText ?_) trivial
    cases hrepl : a.repl with
    | str bytes => exact absurd hrepl (hstr bytes)
    | num n => exact absurd hrepl (hnum n)
    | _ => rfl

/-- `string.gsub("", "", "%x")` is `%x`, not `x`. -/
theorem not_gsubExact_escape :
    ¬ ∀ a, gsubArgs ⟨fun _ => [], fun _ => none, fun _ => none, fun _ => none, fun _ => .ok true⟩
        [.str [], .str [], .str [37, 120]] = .ok a →
      GsubExact ⟨fun _ => [], fun _ => none, fun _ => none, fun _ => none, fun _ => .ok true⟩
        (⟨fun st _ _ => (.ok .nil, st), fun st _ _ => (.ok .nil, st)⟩ : GsubHost Unit) .ascii a ()
        (strGsub ⟨fun _ => [], fun _ => none, fun _ => none, fun _ => none, fun _ => .ok true⟩
          ⟨fun st _ _ => (.ok .nil, st), fun st _ _ => (.ok .nil, st)⟩ .ascii [.str [], .str [], .str [37, 120]] ()) := by
  intro h
  have hexact := h ⟨[], [], .str [37, 120], 2 ^ 63 - 1⟩ rfl
  have hms : Leftmost .ascii [] [] false (2 ^ 63 - 1) 0 [⟨0, 0, []⟩] :=
    .here ⟨by decide, Nat.le_refl 0⟩ nofun (matchAt_empty .ascii [] 0) (.stop (by decide))
  have hnil := (gsubExact_string_iff rfl).mp hexact (by decide) _ [[120]] () hms
    (.cons rfl (.nil ()))
  exact nomatch hnil

end Call

end Rilua.Stdlib
