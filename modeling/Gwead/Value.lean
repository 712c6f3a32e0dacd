import Gwead.Lib.AssocMap
import Gwead.Lib.Binary64
import Mathlib.Data.String.Basic

/-!
# JSON values

The tree every part of the kernel passes around.  An object holds its entries as the ordered map
behind it does: keys strictly increasing, an insertion replacing the value of an equal key.
-/

namespace Gwead

/-- A JSON number is exactly one of an unsigned 64-bit integer, a negative 64-bit integer and a
finite float. -/
inductive Number where
  | posInt (n : Nat) (range : n < 2 ^ 64)
  | negInt (i : Int) (range : -2 ^ 63 ≤ i ∧ i < 0)
  | float (f : Binary64) (finite : f.isFinite = true)
  deriving DecidableEq

namespace Number

/-- A `u64` as a number. -/
def ofU64 (n : Nat) : Number :=
  posInt (n % 2 ^ 64) (Nat.mod_lt _ (by decide))

/-- An `i64` as a number: negative values keep their sign, the others become unsigned. -/
def ofI64 (i : Int) : Number :=
  if h : -2 ^ 63 ≤ i ∧ i < 0 then negInt i h else ofU64 i.toNat

def asF64 : Number → Binary64
  | posInt n _ => Binary64.ofInt n
  | negInt i _ => Binary64.ofInt i
  | float f _ => f

/-- `==` on numbers: an integer never equals a float, and floats compare by value. -/
def eqv : Number → Number → Bool
  | posInt n _, posInt m _ => n == m
  | negInt i _, negInt j _ => i == j
  | float f _, float g _ => f.eq g
  | _, _ => false

end Number

inductive Value where
  | null
  | bool (b : Bool)
  | number (n : Number)
  | string (s : String)
  | array (items : List Value)
  | object (fields : List (String × Value))

namespace Value

instance : Inhabited Value := ⟨null⟩

mutual

def beq : Value → Value → Bool
  | null, null => true
  | bool a, bool b => a == b
  | number a, number b => a == b
  | string a, string b => a == b
  | array a, array b => beqItems a b
  | object a, object b => beqFields a b
  | _, _ => false

def beqItems : List Value → List Value → Bool
  | [], [] => true
  | a :: as, b :: bs => beq a b && beqItems as bs
  | _, _ => false

def beqFields : List (String × Value) → List (String × Value) → Bool
  | [], [] => true
  | (k, a) :: as, (l, b) :: bs => k == l && (beq a b && beqFields as bs)
  | _, _ => false

end

mutual

theorem beq_iff (a b : Value) : a.beq b = true ↔ a = b := by
  cases a with
  | null => cases b <;> simp [beq]
  | bool x => cases b <;> simp [beq]
  | number x => cases b <;> simp [beq]
  | string x => cases b <;> simp [beq]
  | array xs =>
    cases b with
    | array ys => simpa [beq] using beqItems_iff xs ys
    | _ => simp [beq]
  | object xs =>
    cases b with
    | object ys => simpa [beq] using beqFields_iff xs ys
    | _ => simp [beq]

theorem beqItems_iff (as bs : List Value) : beqItems as bs = true ↔ as = bs := by
  cases as with
  | nil => cases bs <;> simp [beqItems]
  | cons a as =>
    cases bs with
    | nil => simp [beqItems]
    | cons b bs => simp [beqItems, beq_iff a b, beqItems_iff as bs]

theorem beqFields_iff (as bs : List (String × Value)) : beqFields as bs = true ↔ as = bs := by
  cases as with
  | nil => cases bs <;> simp [beqFields]
  | cons a as =>
    obtain ⟨k, v⟩ := a
    cases bs with
    | nil => simp [beqFields]
    | cons b bs =>
      obtain ⟨l, w⟩ := b
      simp [beqFields, beq_iff v w, beqFields_iff as bs, and_assoc]

end

instance : DecidableEq Value := fun a b => decidable_of_iff _ (beq_iff a b)

mutual

/-- `==` on values, which is equality except that floats compare by value. -/
def eqv : Value → Value → Bool
  | null, null => true
  | bool a, bool b => a == b
  | number a, number b => a.eqv b
  | string a, string b => a == b
  | array a, array b => eqvItems a b
  | object a, object b => eqvFields a b
  | _, _ => false

def eqvItems : List Value → List Value → Bool
  | [], [] => true
  | a :: as, b :: bs => eqv a b && eqvItems as bs
  | _, _ => false

def eqvFields : List (String × Value) → List (String × Value) → Bool
  | [], [] => true
  | (k, a) :: as, (l, b) :: bs => k == l && (eqv a b && eqvFields as bs)
  | _, _ => false

end

def isNull : Value → Bool
  | null => true
  | _ => false

def asStr : Value → Option String
  | string s => some s
  | _ => none

def asArray : Value → Option (List Value)
  | array items => some items
  | _ => none

def asObject : Value → Option (List (String × Value))
  | object fields => some fields
  | _ => none

def asF64 : Value → Option Binary64
  | number n => some n.asF64
  | _ => none

/-- A field of an object; nothing else has fields. -/
def get (v : Value) (key : String) : Option Value :=
  match v with
  | object fields => fields.lookup key
  | _ => none

def ofNat (n : Nat) : Value := number (Number.ofU64 n)

/-- An object from entries in any order, a later entry replacing an earlier one of its key. -/
def ofFields (fields : List (String × Value)) : Value :=
  object (AssocMap.ofEntries fields)

def emptyObject : Value := object []

mutual

/-- How deep the containers of a value nest. -/
def depth : Value → Nat
  | array items => depthItems items + 1
  | object fields => depthFields fields + 1
  | _ => 0

def depthItems : List Value → Nat
  | [] => 0
  | v :: rest => max (depth v) (depthItems rest)

def depthFields : List (String × Value) → Nat
  | [] => 0
  | (_, v) :: rest => max (depth v) (depthFields rest)

end

@[simp] theorem get_object (fields : List (String × Value)) (key : String) :
    (object fields).get key = fields.lookup key := rfl

@[simp] theorem isNull_iff (v : Value) : v.isNull = true ↔ v = null := by
  cases v <;> simp [isNull]

theorem depth_le_depthItems {v : Value} {items : List Value} (h : v ∈ items) :
    v.depth ≤ depthItems items := by
  induction items with
  | nil => cases h
  | cons w rest ih =>
    rw [depthItems]
    rcases List.mem_cons.mp h with rfl | h
    · exact Nat.le_max_left _ _
    · exact (ih h).trans (Nat.le_max_right _ _)

theorem depth_le_depthFields {k : String} {v : Value} {fields : List (String × Value)}
    (h : (k, v) ∈ fields) : v.depth ≤ depthFields fields := by
  induction fields with
  | nil => cases h
  | cons e rest ih =>
    obtain ⟨l, w⟩ := e
    rw [depthFields]
    rcases List.mem_cons.mp h with heq | h
    · cases heq
      exact Nat.le_max_left _ _
    · exact (ih h).trans (Nat.le_max_right _ _)

theorem depth_get {v w : Value} {key : String} (h : v.get key = some w) : w.depth < v.depth := by
  cases v with
  | object fields =>
    have hm := AssocMap.mem_of_lookup h
    have hle := depth_le_depthFields hm
    rw [depth]
    omega
  | _ => simp [get] at h

theorem depth_mem {v w : Value} {items : List Value} (ha : v.asArray = some items)
    (h : w ∈ items) : w.depth < v.depth := by
  cases v with
  | array xs =>
    cases ha
    have hle := depth_le_depthItems h
    rw [depth]
    omega
  | _ => simp [asArray] at ha

end Value

end Gwead
