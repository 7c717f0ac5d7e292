import FastProto.Wire
import FastProto.Lib.FloatBits

/-! # Python objects as the codec sees them

The native core touches Python objects through a few operations: reading an attribute, converting a
number, borrowing the bytes of a string, iterating a container. `PyShape` is one layer of an object,
enough for these operations, over an arbitrary type `V` of object handles; `PyVal` are the finite
trees of shapes that the decoder builds. Times are counted in microseconds, with the ranges CPython
enforces carried as fields. -/

namespace FastProto

/-- A Python exception, by class and message. -/
inductive PyErr where
  | valueError (msg : String)
  | typeError (msg : String)
  | overflowError (msg : String)
  | attributeError (msg : String)
  | runtimeError (msg : String)
  | lookupError (msg : String)
  /-- A panic of the native code. -/
  | panicked (msg : String)
  /-- Raised by code of the user. -/
  | user (what : String)
  deriving DecidableEq, Repr

/-- A result of Python code. -/
abbrev PyResult (α : Type) := Except PyErr α

/-- The identity of a class object. -/
abbrev ClassId := Nat

/-- The identity of a compiled descriptor. -/
abbrev DescId := Nat

/-! ## Times -/

/-- Microseconds in a day. -/
def dayMicros : Int := 86400 * 10 ^ 6

/-- The wall clock of `datetime.min`, in microseconds since 1970-01-01T00:00:00. -/
def minDatetimeMicros : Int := -62135596800 * 10 ^ 6

/-- The wall clock of `datetime.max`, in microseconds since 1970-01-01T00:00:00. -/
def maxDatetimeMicros : Int := 253402300800 * 10 ^ 6 - 1

/-- A `datetime`: a wall clock in the years 1 to 9999 and, when aware, an offset from UTC. -/
structure DateTime where
  /-- Wall-clock microseconds since 1970-01-01T00:00:00. -/
  micros : Int
  /-- The UTC offset in microseconds; none for a naive `datetime`. -/
  offset : Option Int
  min_le : minDatetimeMicros ≤ micros
  le_max : micros ≤ maxDatetimeMicros
  offset_bounds : ∀ o ∈ offset, -dayMicros < o ∧ o < dayMicros
  deriving DecidableEq, Repr

/-- A `datetime` is its wall clock and its offset. -/
theorem DateTime.ext {d d' : DateTime} (hm : d.micros = d'.micros) (ho : d.offset = d'.offset) :
    d = d' := by
  cases d
  cases d'
  cases hm
  cases ho
  rfl

/-- A `timedelta`: at most 999999999 days in magnitude. -/
structure TimeDelta where
  /-- The whole duration in microseconds. -/
  micros : Int
  min_le : -999999999 * dayMicros ≤ micros
  lt_max : micros < 1000000000 * dayMicros
  deriving DecidableEq, Repr

/-- A `timedelta` is its number of microseconds. -/
theorem TimeDelta.ext {d d' : TimeDelta} (h : d.micros = d'.micros) : d = d' := by
  cases d
  cases d'
  cases h
  rfl

/-- The normalized `days` attribute. -/
def TimeDelta.days (d : TimeDelta) : Int := d.micros / dayMicros

/-- The normalized `seconds` attribute, below 86400. -/
def TimeDelta.seconds (d : TimeDelta) : Int := d.micros % dayMicros / 10 ^ 6

/-- The normalized `microseconds` attribute, below a million. -/
def TimeDelta.microseconds (d : TimeDelta) : Int := d.micros % 10 ^ 6

/-- The constructor on a number of microseconds: `OverflowError` past 999999999 days. -/
def TimeDelta.ofMicros (micros : Int) : PyResult TimeDelta :=
  if h : -999999999 * dayMicros ≤ micros ∧ micros < 1000000000 * dayMicros then
    .ok ⟨micros, h.1, h.2⟩
  else .error (.overflowError "must have magnitude <= 999999999")

/-! ## Shapes and values -/

/-- One layer of a Python object over handles `V`. -/
inductive PyShape (V : Type) where
  | pyNone
  | bool (b : Bool)
  | int (i : Int)
  /-- A `float`, as its binary64 pattern. -/
  | float (bits : UInt64)
  /-- A `str` without lone surrogates. -/
  | str (s : String)
  | bytes (b : Bytes)
  | bytearray (b : Bytes)
  /-- A member of an `IntEnum` class, by its value. -/
  | member (cls : ClassId) (value : Int)
  | datetime (d : DateTime)
  | timedelta (d : TimeDelta)
  | list (items : List V)
  | tuple (items : List V)
  | dict (items : List (V × V))
  /-- An instance of a message class with its attributes. -/
  | inst (cls : ClassId) (attrs : List (String × V))
  /-- Any other object. -/
  | other

/-- The finite Python values. -/
inductive PyVal where
  | pyNone
  | bool (b : Bool)
  | int (i : Int)
  | float (bits : UInt64)
  | str (s : String)
  | bytes (b : Bytes)
  | bytearray (b : Bytes)
  | member (cls : ClassId) (value : Int)
  | datetime (d : DateTime)
  | timedelta (d : TimeDelta)
  | list (items : List PyVal)
  | tuple (items : List PyVal)
  | dict (items : List (PyVal × PyVal))
  | inst (cls : ClassId) (attrs : List (String × PyVal))
  | other
  deriving Repr

/-- The outermost layer of a value. -/
def PyVal.shape : PyVal → PyShape PyVal
  | .pyNone => .pyNone
  | .bool b => .bool b
  | .int i => .int i
  | .float bits => .float bits
  | .str s => .str s
  | .bytes b => .bytes b
  | .bytearray b => .bytearray b
  | .member cls value => .member cls value
  | .datetime d => .datetime d
  | .timedelta d => .timedelta d
  | .list items => .list items
  | .tuple items => .tuple items
  | .dict items => .dict items
  | .inst cls attrs => .inst cls attrs
  | .other => .other

/-! ## Conversions of a value to native data -/

namespace PyShape

variable {V : Type}

/-- `is_none`. -/
def isNone : PyShape V → Bool
  | .pyNone => true
  | _ => false

/-- `is_instance_of::<PyString>` or `is_instance_of::<PyBytes>`. -/
def isStrOrBytes : PyShape V → Bool
  | .str _ | .bytes _ => true
  | _ => false

/-- `__index__`: the integers, booleans and `IntEnum` members. -/
def index : PyShape V → PyResult Int
  | .int i => .ok i
  | .bool b => .ok (if b then 1 else 0)
  | .member _ value => .ok value
  | _ => .error (.typeError "object cannot be interpreted as an integer")

/-- Raised when an integer is outside of the range of the native type. -/
def outOfRangeInt : PyErr := .overflowError "out of range integral type conversion attempted"

/-- `extract::<i32>`. -/
def extractI32 (s : PyShape V) : PyResult Int32 := do
  let i ← s.index
  if -2 ^ 31 ≤ i ∧ i < 2 ^ 31 then .ok (Int32.ofInt i) else .error outOfRangeInt

/-- `extract::<i64>`. -/
def extractI64 (s : PyShape V) : PyResult Int64 := do
  let i ← s.index
  if -2 ^ 63 ≤ i ∧ i < 2 ^ 63 then .ok (Int64.ofInt i) else .error outOfRangeInt

/-- `extract::<u32>`. -/
def extractU32 (s : PyShape V) : PyResult UInt32 := do
  let i ← s.index
  if 0 ≤ i ∧ i < 2 ^ 32 then .ok (UInt32.ofNat i.toNat) else .error outOfRangeInt

/-- `extract::<u64>`. -/
def extractU64 (s : PyShape V) : PyResult UInt64 := do
  let i ← s.index
  if 0 ≤ i ∧ i < 2 ^ 64 then .ok (UInt64.ofNat i.toNat) else .error outOfRangeInt

/-- `extract::<bool>`: only a genuine `bool`. -/
def extractBool : PyShape V → PyResult Bool
  | .bool b => .ok b
  | _ => .error (.typeError "object is not an instance of bool")

/-- `extract::<f64>`, as a bit pattern: floats, and integers rounded to nearest. -/
def extractF64 : PyShape V → PyResult UInt64
  | .float bits => .ok bits
  | s =>
      match s.index with
      | .ok i =>
          match Lib.FloatBits.ofInt i with
          | some bits => .ok bits
          | none => .error (.overflowError "int too large to convert to float")
      | .error _ => .error (.typeError "must be real number")

/-- `extract::<f32>`, as a bit pattern: the `f64` rounded. -/
def extractF32 (s : PyShape V) : PyResult UInt32 := do
  let bits ← s.extractF64
  .ok (Lib.FloatBits.narrow bits)

/-- `cast::<PyString>` and `to_str`, as UTF-8 bytes. -/
def strBytes : PyShape V → PyResult Bytes
  | .str s => .ok s.toUTF8.data.toList
  | _ => .error (.typeError "object is not an instance of str")

/-- Borrow a `bytes`/`bytearray` value. -/
def byteSlice : PyShape V → PyResult Bytes
  | .bytes b => .ok b
  | .bytearray b => .ok b
  | _ => .error (.typeError "bytes field requires a bytes or bytearray value")

end PyShape

end FastProto
