import CourseWork.Lib.CLib

/-!
# Bencode: values, encoder and decoder

The `bencode` module of the torrent client. A parser gets the bytes from `ptr` to
`end` and returns what the C function returns together with what it has stored
in `*obj`, also when it fails.
-/

namespace CourseWork.Bencode
open CLib

/-! ## Values -/

mutual
/-- `ben_obj_t`. -/
inductive Ben where
  | str (data : Bytes)
  | int (integer : Int64)
  | list (items : Items)
  | dict (pairs : Pairs)
  deriving DecidableEq

/-- The array `value.list.items`. -/
inductive Items where
  | nil
  | cons (item : Ben) (items : Items)
  deriving DecidableEq

/-- The array `value.dict.pairs`; a key keeps all of its `key_len` bytes. -/
inductive Pairs where
  | nil
  | cons (key : Bytes) (value : Ben) (pairs : Pairs)
  deriving DecidableEq
end

/-- A byte buffer as C has them: no object is larger than `PTRDIFF_MAX`. -/
structure Buffer where
  bytes : Bytes
  length_lt : bytes.length < 2 ^ 63

/-! ## Encoder -/

/-- `%lld`. -/
def printLong (n : Int) : Bytes :=
  if n < 0 then 45 :: Numeral.print 10 n.natAbs else Numeral.print 10 n.natAbs

/-- A string with its length, as `encode_obj` writes values and keys. -/
def encodeStr (data : Bytes) : Bytes := Numeral.print 10 data.length ++ 58 :: data

mutual
/-- `encode_obj`: the bytes it appends for one object. -/
def encodeObj : Ben → Bytes
  | .str data => encodeStr data
  | .int n => 105 :: (printLong n.toInt ++ [101])
  | .list items => 108 :: (encodeItems items ++ [101])
  | .dict pairs => 100 :: (encodePairs pairs ++ [101])

def encodeItems : Items → Bytes
  | .nil => []
  | .cons item items => encodeObj item ++ encodeItems items

def encodePairs : Pairs → Bytes
  | .nil => []
  | .cons key value pairs => encodeStr key ++ (encodeObj value ++ encodePairs pairs)
end

/-- `bencode_encode`. -/
def bencodeEncode (obj : Ben) : Bytes := encodeObj obj

/-! ## Decoder -/

/-- Why a parser has no result: it read past the buffer, or the recursion of the
model was cut off. `bencodeDecode` never runs into the second. -/
inductive Fault where
  | outOfBounds
  | fuel
  deriving DecidableEq

/-- The outcome of a parser: the returned pointer (`none` is NULL) and the value
of `*obj` (`none` while nothing was assigned). -/
structure Parsed where
  next : Option Bytes
  obj : Option Ben
  deriving DecidableEq

/-- The first failure exit of the parsers: NULL, with `*obj` untouched. -/
def Parsed.failed : Parsed := ⟨none, none⟩

/-- `parse_string`. -/
def parseString (ptr : Bytes) : Parsed :=
  match memchr 58 ptr with
  | none => .failed
  | some colon =>
    let len := (strtol ptr).1
    if len < 0 ∨ ptr.length < colon + 1 + len.toNat then .failed
    else
      let data := ptr.drop (colon + 1)
      ⟨some (data.drop len.toNat), some (.str (data.take len.toNat))⟩

/-- `parse_int`. The integer is stored before the check for trailing characters. -/
def parseInt (ptr : Bytes) : Parsed :=
  let ptr := ptr.tail
  match memchr 101 ptr with
  | none => .failed
  | some e =>
    let (integer, endptr) := strtol ptr
    if endptr ≠ e then ⟨none, some (.int (Int64.ofInt integer))⟩
    else ⟨some (ptr.drop (e + 1)), some (.int (Int64.ofInt integer))⟩

mutual
/-- The dispatch on the first byte that `bencode_decode`, `parse_list` and
`parse_dict` share. The byte is read without a comparison with `end`. -/
def parseValue : Nat → Bytes → Except Fault Parsed
  | _, [] => .error .outOfBounds
  | 0, _ :: _ => .error .fuel
  | fuel + 1, c :: s =>
    if Numeral.isDigit 10 c then .ok (parseString (c :: s))
    else if c = 105 then .ok (parseInt (c :: s))
    else if c = 108 then parseList fuel (c :: s)
    else if c = 100 then parseDict fuel (c :: s)
    else .ok .failed

/-- `parse_list`. -/
def parseList : Nat → Bytes → Except Fault Parsed
  | 0, _ => .error .fuel
  | fuel + 1, ptr => do
    let (next, items) ← parseItems fuel ptr.tail
    return ⟨next, some (.list items)⟩

/-- The loop of `parse_list`, with the items it appends. -/
def parseItems : Nat → Bytes → Except Fault (Option Bytes × Items)
  | 0, _ => .error .fuel
  | _ + 1, [] => .ok (none, .nil)
  | fuel + 1, c :: s =>
    if c = 101 then .ok (some s, .nil)
    else do
      match ← parseValue fuel (c :: s) with
      | ⟨some next, some item⟩ =>
        let (r, items) ← parseItems fuel next
        return (r, .cons item items)
      | _ => return (none, .nil)

/-- `parse_dict`. -/
def parseDict : Nat → Bytes → Except Fault Parsed
  | 0, _ => .error .fuel
  | fuel + 1, ptr => do
    let (next, pairs) ← parsePairs fuel ptr.tail
    return ⟨next, some (.dict pairs)⟩

/-- The loop of `parse_dict`. The first byte of a key is not checked, and the first
byte of its value is read even when the key ends the buffer. -/
def parsePairs : Nat → Bytes → Except Fault (Option Bytes × Pairs)
  | 0, _ => .error .fuel
  | _ + 1, [] => .ok (none, .nil)
  | fuel + 1, c :: s =>
    if c = 101 then .ok (some s, .nil)
    else
      match parseString (c :: s) with
      | ⟨some next, some (.str key)⟩ => do
        match ← parseValue fuel next with
        | ⟨some valNext, some value⟩ =>
          let (r, pairs) ← parsePairs fuel valNext
          return (r, .cons key value pairs)
        | _ => return (none, .nil)
      | _ => .ok (none, .nil)
end

/-- The recursion depth that suffices for `n` bytes. -/
def depth (n : Nat) : Nat := 3 * n + 1

/-- `bencode_decode`; `.ok none` is NULL. -/
def bencodeDecode (data : Bytes) : Except Fault (Option Ben) := do
  let p ← parseValue (depth data.length) data
  return if p.next = some [] then p.obj else none

/-! ## Access -/

/-- `bencode_dict_get` on the pairs of a dictionary: `strcmp` on the key. -/
def Pairs.get : Pairs → Bytes → Option Ben
  | .nil, _ => none
  | .cons k value pairs, key => if cstr k = key then some value else pairs.get key

/-- `bencode_dict_get`. -/
def bencodeDictGet (dict : Ben) (key : Bytes) : Option Ben :=
  match dict with
  | .dict pairs => pairs.get key
  | _ => none

/-- `bencode_string_data`. -/
def bencodeStringData : Option Ben → Option Bytes
  | some (.str data) => some data
  | _ => none

example : bencodeDecode (ascii "d3:agei30ee") =
    .ok (some (.dict (.cons (ascii "age") (.int 30) .nil))) := by decide +kernel

end CourseWork.Bencode
