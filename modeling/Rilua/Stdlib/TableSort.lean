import Rilua.Lib.Rearranged
import Rilua.Stdlib.TableLists
import Rilua.Stdlib.TableOrder

/-! `table.sort` (`stdlib/table.rs`). Comparisons run Lua code, which may change anything: its state `σ` is left open.
    The computations announce the integers that are read and swapped. -/

namespace Rilua.Vm

open Lib Gc

/-- Computations of `table.sort`. -/
abbrev SortM (σ α : Type) : Type := Act (SecretTables × σ) ℤ LuaError α

/-- The interpreter, and whether the caller is secure. -/
structure SortHost (σ : Type) extends OrderHost σ where
  secure : σ → Bool

inductive SortComparator where
  | default
  | lua (func : Val)

namespace SortM

variable {σ α : Type}

def onTables (host : SortHost σ) (x : Bool → SecretM α) : SortM σ α := fun (s, h) =>
  (x (host.secure h) s).map fun (s, _, r) => ((s, h), [], r)

def getRaw (host : SortHost σ) (r : GcRef .table) (idx : ℤ) : SortM σ Val :=
  Act.writing idx (onTables host fun secure => SecretM.getRaw secure r idx)

def swapSortValues (host : SortHost σ) (r : GcRef .table) (leftIdx : ℤ) (leftVal : Val) (rightIdx : ℤ)
    (rightVal : Val) : SortM σ Unit :=
  Act.writing leftIdx (Act.writing rightIdx
    (onTables host fun secure => SecretM.swapSortValues secure r leftIdx leftVal rightIdx rightVal))

def onOrder (x : OrderM σ α) : SortM σ α := fun s => (x s).map fun (s, _, r) => (s, [], r)

def sortComp (host : SortHost σ) (a b : Val) : SortComparator → SortM σ Bool
  | .default => onOrder (OrderM.defaultLessThan host.toOrderHost a b)
  | .lua func => onOrder (OrderM.callForBool host.toOrderHost func a b)

def invalidOrder : LuaError := ⟨"invalid order function for sorting"⟩

/-- The next value upwards that is not less than the pivot, and where it is. -/
def scanSortForward (host : SortHost σ) (r : GcRef .table) (upper : ℤ) (pivot : Val) (comp : SortComparator)
    (idx : ℤ) : SortM σ (ℤ × Val) :=
  if h : idx + 1 > upper then Act.fail invalidOrder
  else do
    let value ← getRaw host r (idx + 1)
    if ¬ (← sortComp host value pivot comp) then pure (idx + 1, value)
    else scanSortForward host r upper pivot comp (idx + 1)
termination_by (upper - idx).toNat

/-- The next value downwards that the pivot is not less than. -/
def scanSortBackward (host : SortHost σ) (r : GcRef .table) (lower : ℤ) (pivot : Val) (comp : SortComparator)
    (idx : ℤ) : SortM σ (ℤ × Val) :=
  if h : idx - 1 < lower then Act.fail invalidOrder
  else do
    let value ← getRaw host r (idx - 1)
    if ¬ (← sortComp host pivot value comp) then pure (idx - 1, value)
    else scanSortBackward host r lower pivot comp (idx - 1)
termination_by (idx - lower).toNat

/-- The loop around the scans: it comes to where they met. `fuel` bounds its rounds. -/
def partitionLoop (host : SortHost σ) (r : GcRef .table) (l u : ℤ) (pivot : Val) (comp : SortComparator) :
    ℕ → ℤ → ℤ → SortM σ ℤ
  | 0, _, _ => Act.ofOption none
  | fuel + 1, i, j => do
    let (i, ai) ← scanSortForward host r u pivot comp i
    let (j, aj) ← scanSortBackward host r l pivot comp j
    if j < i then pure i
    else
      swapSortValues host r i ai j aj
      partitionLoop host r l u pivot comp fuel i j

def swapIf (host : SortHost σ) (r : GcRef .table) (less : Bool) (leftIdx : ℤ) (leftVal : Val) (rightIdx : ℤ)
    (rightVal : Val) : SortM σ Unit :=
  if less then swapSortValues host r leftIdx leftVal rightIdx rightVal else pure ()

/-- Sorts the one in the middle into the first and the last. -/
def sortMiddle (host : SortHost σ) (r : GcRef .table) (l mid u : ℤ) (comp : SortComparator) : SortM σ Unit := do
  let amid ← getRaw host r mid
  let al ← getRaw host r l
  if ← sortComp host amid al comp then swapSortValues host r mid amid l al
  else
    let au ← getRaw host r u
    swapIf host r (← sortComp host au amid comp) mid amid u au

/-- Sorts the first, the last and the one in the middle, if there are so many. The result says whether there are
    more. -/
def sortEnds (host : SortHost σ) (r : GcRef .table) (l u : ℤ) (comp : SortComparator) : SortM σ Bool := do
  let al ← getRaw host r l
  let au ← getRaw host r u
  swapIf host r (← sortComp host au al comp) l al u au
  if u - l = 1 then pure false
  else
    sortMiddle host r l ((l + u).tdiv 2) u comp
    pure (u - l ≠ 2)

/-- Divides a range at the value in its middle: it comes to the place of the pivot. -/
def partitionRange (host : SortHost σ) (r : GcRef .table) (l u : ℤ) (comp : SortComparator) : SortM σ ℤ := do
  let mid := (l + u).tdiv 2
  let pivot ← getRaw host r mid
  let au1 ← getRaw host r (u - 1)
  swapSortValues host r mid pivot (u - 1) au1
  let i ← partitionLoop host r l u pivot comp (u - l).toNat l (u - 1)
  let ai ← getRaw host r i
  swapSortValues host r (u - 1) pivot i ai
  pure i

/-- The quicksort. The loop over the larger part is a second call. `fuel` bounds the nesting. -/
def auxsort (host : SortHost σ) (r : GcRef .table) (comp : SortComparator) : ℕ → ℤ → ℤ → SortM σ Unit
  | 0, _, _ => Act.ofOption none
  | fuel + 1, l, u => do
    if l < u then
      if ← sortEnds host r l u comp then
        let i ← partitionRange host r l u comp
        if i - l < u - i then
          auxsort host r comp fuel l (i - 1)
          auxsort host r comp fuel (i + 1) u
        else
          auxsort host r comp fuel (i + 1) u
          auxsort host r comp fuel l (i - 1)
    else pure ()

def comparatorArg : Val → Except LuaError SortComparator
  | .nil => .ok .default
  | .function f => .ok (.lua (.function f))
  | _ => .error (badArgument "sort" 2 "function expected")

/-- `table.sort`. -/
def tabSort (host : SortHost σ) (args : List Val) : SortM σ Unit := do
  let r ← onTables host fun secure => SecretM.checkTable secure "sort" (argOf args 0)
  let n ← onTables host fun secure => SecretM.tableLen secure r
  match comparatorArg (argOf args 1) with
  | .error e => Act.fail e
  | .ok comp =>
    if n > 1 then
      auxsort host r comp (n + 1).toNat 1 n
      onTables host fun _ => SecretM.barrierBack r
    else pure ()

end SortM

end Rilua.Vm
