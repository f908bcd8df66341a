import Kairos.Go.Strings

/-!
# Go values and the heap

Values of templates are Go's `interface{}`. Slices and maps are addresses into a heap. `append`
writes in place while the capacity lasts, so that two slices of one array see each other. A `Host`
has the parts of Go's library that are tables or floating point and the choices that Go leaves open,
and a `JsRuntime` the user's functions.
-/

namespace Kairos

abbrev Addr := ℕ

abbrev Float64 := BitVec 64

namespace Float64

def zero : Float64 := 0

def isSpecial (x : Float64) : Bool := x.extractLsb' 52 11 == 0x7ff#11

def isNaN (x : Float64) : Bool := isSpecial x && x.extractLsb' 0 52 != 0#52

def isZero (x : Float64) : Bool := x.extractLsb' 0 63 == 0#63

def eq (x y : Float64) : Bool := !isNaN x && !isNaN y && (x == y || isZero x && isZero y)

end Float64

inductive Json where
  | null
  | bool (b : Bool)
  | int (n : ℤ)
  | float (x : Float64)
  | str (s : GoString)
  | arr (items : List Json)
  | obj (fields : List (GoString × Json))

structure TaskResult where
  success : Bool
  output : GoString
  attempt : ℕ
  startedAt : ℤ
  finishedAt : ℤ
  offset : ℤ
  runCount : ℤ
deriving DecidableEq

def TaskResult.toJson (r : TaskResult) : Json :=
  .obj [("success", .bool r.success), ("output", .str r.output),
    ("attempt", .int r.attempt), ("started_at", .int r.startedAt),
    ("finished_at", .int r.finishedAt), ("offset", .int r.offset),
    ("run_coun", .int r.runCount)]

inductive Kind where
  | bool
  | int
  | int64
  | float64
  | string
  | slice
  | map
  | ptr
  | struct
deriving DecidableEq

inductive MapType where
  | plain
  | reply
  | any
deriving DecidableEq

/-- A value that the interpreter never looks into: what `reflect` and `encoding/json` tell of it. -/
structure Foreign where
  kind : Kind
  int : ℤ
  float : Float64
  str : GoString
  json : Option ℕ
  ident : ℕ
deriving DecidableEq

inductive Val where
  | nil
  | bool (b : Bool)
  | float (x : Float64)
  | int (n : ℤ)
  | int64 (n : ℤ)
  | str (s : GoString)
  /-- A `[]interface{}`: its backing array, none if nil, and its length. Slices start at the first
  element of their array. -/
  | slice (base : Option Addr) (len : ℕ)
  | map (type : MapType) (base : Option Addr)
  | mapPtr (type : MapType) (base : Option Addr)
  | result (r : TaskResult)
  | foreign (v : Foreign)
deriving DecidableEq

def Val.isStr : Val → Bool
  | .str _ => true
  | _ => false

structure Kv where
  key : GoString
  value : Val
deriving DecidableEq

inductive Cell where
  | arr (slots : List Val)
  | map (entries : List Kv)
deriving DecidableEq

abbrev Heap := List Cell

namespace Heap

def slots (h : Heap) (a : Addr) : List Val :=
  match h[a]? with
  | some (.arr vs) => vs
  | _ => []

def entries (h : Heap) (a : Addr) : List Kv :=
  match h[a]? with
  | some (.map es) => es
  | _ => []

def elems (h : Heap) (base : Option Addr) (len : ℕ) : List Val :=
  match base with
  | some a => (h.slots a).take len
  | none => []

def mapEntries (h : Heap) (base : Option Addr) : List Kv :=
  match base with
  | some a => h.entries a
  | none => []

def fresh (h : Heap) : Addr := h.length

def alloc (h : Heap) (c : Cell) : Heap := h ++ [c]

def setSlot (h : Heap) (a : Addr) (i : ℕ) (v : Val) : Heap := h.set a (.arr ((h.slots a).set i v))

def children (h : Heap) : Val → List Val
  | .slice base len => h.elems base len
  | .map _ base => (h.mapEntries base).map Kv.value
  | .mapPtr _ base => (h.mapEntries base).map Kv.value
  | _ => []

/-- Whether `fmt` comes to an end on a value inside another. A pointer is an address there. -/
def nestsIn (h : Heap) : ℕ → Val → Bool
  | 0, _ => false
  | _ + 1, .mapPtr _ _ => true
  | fuel + 1, v => (h.children v).all (h.nestsIn fuel)

/-- Whether `fmt` comes to an end on a value. A pointer to a map is printed with the map. -/
def nests (h : Heap) (depth : ℕ) (v : Val) : Bool := (h.children v).all (h.nestsIn depth)

end Heap

def lookup (es : List Kv) (key : GoString) : Option Val :=
  (es.find? fun e => e.key == key).map Kv.value

def insertKey (es : List Kv) (key : GoString) (v : Val) : List Kv :=
  if es.any fun e => e.key == key then es.map fun e => if e.key = key then ⟨key, v⟩ else e
  else es ++ [⟨key, v⟩]

def eraseKey (es : List Kv) (key : GoString) : List Kv := es.filter fun e => e.key != key

inductive JsReturn where
  | error (msg : GoString)
  | nilType
  /-- The export kind is `reflect.Map` or `reflect.Array`: the keys, each with its value. -/
  | object (fields : List Kv)
  | number (v : Val)
  | string (v : Val)
  | other (kind : GoString)

/-- A JavaScript runtime. Its state is a number, so that a function may depend on all earlier
calls. Reading a global does not throw: none is defined by a getter. -/
structure JsRuntime where
  /-- `Get`: whether the name is defined, and whether it can be exported as a function. -/
  get : GoString → Option Bool
  exportError : GoString → GoString
  call : GoString → List Val → Heap → ℕ → JsReturn × Heap × ℕ

/-- What the model takes from Go's runtime and libraries as it is. -/
structure Host where
  lower : Char → Char
  parseFloat : GoString → Float64
  add : Float64 → Float64 → Float64
  sub : Float64 → Float64 → Float64
  ofInt : ℤ → Float64
  /-- The parser of `encoding/json`. -/
  jsonText : GoString → Option Json
  jsonRender : Json → GoString
  jsonError : GoString
  foreignJson : ℕ → Json
  sprintf : Heap → GoString → List Val → GoString
  /-- The arguments of `Sprintf` that the format shows with what they hold. -/
  printed : GoString → List Val → List Val
  showVal : Heap → Val → GoString
  typeName : Val → GoString
  /-- The capacity beyond its length that `append` gives to a new array. -/
  spare : ℕ → ℕ
  /-- The order of a loop over a map. -/
  mapOrder : ℕ → List Kv → List Kv
  /-- How deep `fmt` follows a value before the stack overflows. -/
  printDepth : ℕ

def Host.toLower (H : Host) (s : GoString) : GoString := s.map H.lower

def natBits (n : ℕ) : ℕ :=
  if n = 0 then 0 else (1023 + n.log2) * 2 ^ 52 + (n * 2 ^ (52 - n.log2) - 2 ^ 52)

def bitsNat (b : ℕ) : ℕ :=
  if b = 0 then 0 else (2 ^ 52 + b % 2 ^ 52) / 2 ^ (52 - (b / 2 ^ 52 - 1023))

def plainHost : Host where
  lower := Char.toLower
  parseFloat s := BitVec.ofNat 64 (natBits ((Strings.atoi s).getD 0).toNat)
  add x y := BitVec.ofNat 64 (natBits (bitsNat x.toNat + bitsNat y.toNat))
  sub x y := BitVec.ofNat 64 (natBits (bitsNat x.toNat - bitsNat y.toNat))
  ofInt n := BitVec.ofNat 64 (natBits n.toNat)
  jsonText _ := none
  jsonRender _ := []
  jsonError := []
  foreignJson _ := .null
  sprintf _ format _ := format
  showVal _ _ := []
  typeName _ := []
  spare n := n - 2
  mapOrder _ es := es
  printed _ vs := vs
  printDepth := 100

end Kairos
