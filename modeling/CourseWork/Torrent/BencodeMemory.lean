import CourseWork.Lib.CheckedMemory
import CourseWork.Torrent.BencodeGrammar

/-!
# The decoder in memory

The parsers of the `bencode` module on offsets into a memory, with every byte that they
read, and on objects whose fields are unassigned until a parser writes them. The memory
may go on behind the `size` bytes of the buffer.

Result: `valueAt_follows`, the parsers do what the parsers on lists do, and only the dispatch
on the first byte of a value reads behind the buffer.
-/

namespace CourseWork.Bencode
open CLib CheckedMemory

/-! ## Objects -/

/-- `ben_type_t`. -/
inductive BenType where
  | string
  | int
  | list
  | dict
  deriving DecidableEq

mutual
/-- `ben_obj_t`: the tag, if it has been assigned, and the union. -/
inductive Obj where
  | mk (type : Option BenType) (value : ObjValue)

/-- The member of the union that was assigned last. -/
inductive ObjValue where
  | unassigned
  | string (data : Bytes)
  | integer (n : Int64)
  | list (items : ObjItems) (count : Nat)
  | dict (pairs : ObjPairs) (count : Nat)

/-- The array at `items`. -/
inductive ObjItems where
  | nil
  | cons (item : Obj) (items : ObjItems)

/-- The array at `pairs`. -/
inductive ObjPairs where
  | nil
  | cons (key : Bytes) (value : Obj) (pairs : ObjPairs)
end

/-- An object as `xmalloc` returns it. -/
def Obj.fresh : Obj := .mk none .unassigned

mutual
/-- `bencode_free_internal`: what it reads has to be assigned. -/
def freeInternal : Obj → Checked Unit
  | .mk none _ => .error .uninitialised
  | .mk (some .string) _ => .ok ()
  | .mk (some .int) _ => .ok ()
  | .mk (some .list) (.list items count) => freeItems count items
  | .mk (some .list) _ => .error .uninitialised
  | .mk (some .dict) (.dict pairs count) => freePairs count pairs
  | .mk (some .dict) _ => .error .uninitialised

/-- The loop over the items. -/
def freeItems : Nat → ObjItems → Checked Unit
  | 0, _ => .ok ()
  | _ + 1, .nil => .error .uninitialised
  | count + 1, .cons item items => do
    freeInternal item
    freeItems count items

/-- The loop over the pairs. -/
def freePairs : Nat → ObjPairs → Checked Unit
  | 0, _ => .ok ()
  | _ + 1, .nil => .error .uninitialised
  | count + 1, .cons _ value pairs => do
    freeInternal value
    freePairs count pairs
end

/-! ## The parsers -/

/-- The string that `parse_string` finds: the returned offset, `data` and `len`. -/
structure StringAt where
  next : Nat
  data : Nat
  len : Nat

/-- What a parser leaves: the returned offset (`none` is NULL), and the object. -/
structure Left where
  next : Option Nat
  obj : Obj

/-- `parse_string`; where it returns NULL it assigns nothing. -/
def parseStringAt (mem : Bytes) (size ptr : Nat) : Checked (Option StringAt) := do
  match ← CheckedMemory.memchr mem ptr 58 ((size : Int) - ptr) with
  | none => return none
  | some colon =>
    let (len, _) ← CheckedMemory.strtol mem ptr
    if len < 0 ∨ colon + 1 + len.toNat > size then return none
    else return some ⟨colon + 1 + len.toNat, colon + 1, len.toNat⟩

/-- The object that `parse_string` leaves. -/
def stringLeft (mem : Bytes) : Option StringAt → Left
  | none => ⟨none, .fresh⟩
  | some s => ⟨some s.next, .mk (some .string) (.string ((mem.drop s.data).take s.len))⟩

/-- `parse_int`. -/
def parseIntAt (mem : Bytes) (size ptr : Nat) : Checked Left := do
  let ptr := ptr + 1
  match ← CheckedMemory.memchr mem ptr 101 ((size : Int) - ptr) with
  | none => return ⟨none, .fresh⟩
  | some e =>
    let (integer, endptr) ← CheckedMemory.strtol mem ptr
    let obj := Obj.mk (some .int) (.integer (Int64.ofInt integer))
    if endptr ≠ e then return ⟨none, obj⟩
    else return ⟨some (e + 1), obj⟩

mutual
/-- The dispatch on the first byte of a value. -/
def valueAt (mem : Bytes) (size : Nat) : Nat → Nat → Checked Left
  | 0, _ => .error .fuel
  | fuel + 1, ptr => do
    let c ← load mem ptr
    if Numeral.isDigit 10 c then return stringLeft mem (← parseStringAt mem size ptr)
    else if c = 105 then parseIntAt mem size ptr
    else if c = 108 then parseListAt mem size fuel ptr
    else if c = 100 then parseDictAt mem size fuel ptr
    else return ⟨none, .fresh⟩

/-- `parse_list`. -/
def parseListAt (mem : Bytes) (size : Nat) : Nat → Nat → Checked Left
  | 0, _ => .error .fuel
  | fuel + 1, ptr => do
    let (next, items, count) ← itemsAt mem size fuel (ptr + 1)
    return ⟨next, .mk (some .list) (.list items count)⟩

/-- The loop of `parse_list`, with the items it appends and their number. -/
def itemsAt (mem : Bytes) (size : Nat) : Nat → Nat → Checked (Option Nat × ObjItems × Nat)
  | 0, _ => .error .fuel
  | fuel + 1, ptr =>
    if ptr < size then do
      let c ← load mem ptr
      if c = 101 then return (some (ptr + 1), .nil, 0)
      else
        match ← valueAt mem size fuel ptr with
        | ⟨none, _⟩ => return (none, .nil, 0)
        | ⟨some next, item⟩ =>
          let (r, items, count) ← itemsAt mem size fuel next
          return (r, .cons item items, count + 1)
    else return (none, .nil, 0)

/-- `parse_dict`. -/
def parseDictAt (mem : Bytes) (size : Nat) : Nat → Nat → Checked Left
  | 0, _ => .error .fuel
  | fuel + 1, ptr => do
    let (next, pairs, count) ← pairsAt mem size fuel (ptr + 1)
    return ⟨next, .mk (some .dict) (.dict pairs count)⟩

/-- The loop of `parse_dict`. -/
def pairsAt (mem : Bytes) (size : Nat) : Nat → Nat → Checked (Option Nat × ObjPairs × Nat)
  | 0, _ => .error .fuel
  | fuel + 1, ptr =>
    if ptr < size then do
      let c ← load mem ptr
      if c = 101 then return (some (ptr + 1), .nil, 0)
      else
        match ← parseStringAt mem size ptr with
        | none => return (none, .nil, 0)
        | some s =>
          let key ← CheckedMemory.copy mem s.data s.len
          -- The first byte of the value is read without a comparison with `end`.
          match ← valueAt mem size fuel s.next with
          | ⟨none, _⟩ => return (none, .nil, 0)
          | ⟨some next, value⟩ =>
            let (r, pairs, count) ← pairsAt mem size fuel next
            return (r, .cons key value pairs, count + 1)
    else return (none, .nil, 0)
end

/-- The bytes on which `bencode_decode` calls a parser. -/
def isValueStart (c : UInt8) : Bool :=
  Numeral.isDigit 10 c || c == 105 || c == 108 || c == 100

/-- The end of `bencode_decode`: unless all of the buffer is parsed, the object is freed. -/
def finishDecode (size : Nat) (left : Left) : Checked (Option Obj) :=
  if left.next = some size then .ok (some left.obj)
  else do
    freeInternal left.obj
    return none

/-- `bencode_decode`; `none` is NULL. An object that no parser got is freed as it is. -/
def bencodeDecodeAt (mem : Bytes) (size : Nat) : Checked (Option Obj) := do
  let c ← load mem 0
  if isValueStart c then
    let left ← valueAt mem size (depth size) 0
    finishDecode size left
  else return none

/-! ## Assigned objects -/

/-- The number of items. -/
def Items.length : Items → Nat
  | .nil => 0
  | .cons _ items => items.length + 1

/-- The number of pairs. -/
def Pairs.length : Pairs → Nat
  | .nil => 0
  | .cons _ _ pairs => pairs.length + 1

mutual
/-- The object of a value. -/
def Obj.ofBen : Ben → Obj
  | .str data => .mk (some .string) (.string data)
  | .int n => .mk (some .int) (.integer n)
  | .list items => .mk (some .list) (.list (ObjItems.ofItems items) items.length)
  | .dict pairs => .mk (some .dict) (.dict (ObjPairs.ofPairs pairs) pairs.length)

def ObjItems.ofItems : Items → ObjItems
  | .nil => .nil
  | .cons item items => .cons (Obj.ofBen item) (ObjItems.ofItems items)

def ObjPairs.ofPairs : Pairs → ObjPairs
  | .nil => .nil
  | .cons key value pairs => .cons key (Obj.ofBen value) (ObjPairs.ofPairs pairs)
end

/-- The object that a parser on lists has stored, if any. -/
def Obj.ofStored : Option Ben → Obj
  | none => .fresh
  | some v => .ofBen v

mutual
/-- All that the cleanup of a value reads is assigned. -/
theorem freeInternal_ofBen : ∀ v : Ben, freeInternal (.ofBen v) = .ok ()
  | .str _ => rfl
  | .int _ => rfl
  | .list items => by rw [Obj.ofBen, freeInternal, freeItems_ofItems items]
  | .dict pairs => by rw [Obj.ofBen, freeInternal, freePairs_ofPairs pairs]

theorem freeItems_ofItems : ∀ items : Items,
    freeItems items.length (.ofItems items) = .ok ()
  | .nil => rfl
  | .cons item items => by
    rw [Items.length, ObjItems.ofItems, freeItems, freeInternal_ofBen item]
    exact freeItems_ofItems items

theorem freePairs_ofPairs : ∀ pairs : Pairs,
    freePairs pairs.length (.ofPairs pairs) = .ok ()
  | .nil => rfl
  | .cons key value pairs => by
    rw [Pairs.length, ObjPairs.ofPairs, freePairs, freeInternal_ofBen value]
    exact freePairs_ofPairs pairs
end

/-! ## Places in the buffer -/

/-- The offset of a text at the end of the buffer. -/
def place (data r : Bytes) : Nat := data.length - r.length

/-- The rest of the buffer from an offset on. -/
structure RestAt (data : Bytes) (p : Nat) (s : Bytes) : Prop where
  length : p + s.length = data.length
  drop : data.drop p = s

section Places

variable {data tail s a r : Bytes} {p : Nat} {c : UInt8}

theorem RestAt.whole (data : Bytes) : RestAt data 0 data := ⟨Nat.zero_add _, rfl⟩

theorem RestAt.skip (h : RestAt data p (a ++ r)) : RestAt data (p + a.length) r := by
  refine ⟨?_, ?_⟩
  · rw [← h.length, List.length_append, Nat.add_assoc]
  · rw [← List.drop_drop, h.drop, List.drop_left]

theorem RestAt.next (h : RestAt data p (c :: r)) : RestAt data (p + 1) r :=
  RestAt.skip (a := [c]) h

theorem RestAt.place_eq (h : RestAt data p s) : place data s = p := by
  rw [place, ← h.length, Nat.add_sub_cancel]

/-- The memory goes on behind the rest. -/
theorem RestAt.drop_mem (h : RestAt data p s) (tail : Bytes) :
    (data ++ tail).drop p = s ++ tail := by
  rw [List.drop_append_of_le_length (Nat.le.intro h.length), h.drop]

theorem RestAt.remaining (h : RestAt data p s) : (data.length : Int) - p = s.length := by
  have := h.length
  omega

end Places

/-! ## The parsers agree with those on lists -/

/-- The first byte of a value has been read behind the buffer. Only `i` calls `memchr` then;
all other bytes lead to NULL. -/
def RunsOff {α : Type} (tail : Bytes) (size : Nat) (P : α → Prop) (m : Checked α) : Prop :=
  match tail with
  | [] => m = .error (.outOfBounds size)
  | c :: _ => if c = 105 then m = .error .negativeLength else ∃ a, m = .ok a ∧ P a

/-- The parser in memory does what the parser on lists does, as far as that is defined. -/
def Follows (data tail : Bytes) (r : Except Bencode.Fault Parsed) (m : Checked Left) : Prop :=
  match r with
  | .ok parsed => m = .ok ⟨parsed.next.map (place data), .ofStored parsed.obj⟩
  | .error _ => RunsOff tail data.length (fun left => left.next = none ∧ ∃ v, left.obj = .ofBen v) m

/-- The same of a value that starts in the buffer or right behind it. -/
def FollowsHere (data tail : Bytes) (r : Except Bencode.Fault Parsed) (m : Checked Left) : Prop :=
  match r with
  | .ok parsed => m = .ok ⟨parsed.next.map (place data), .ofStored parsed.obj⟩
  | .error _ => RunsOff tail data.length (fun left => left.next = none) m

/-- The same of the loops, whose values are arrays and their lengths. -/
def FollowsLoop {γ δ : Type} (array : γ → δ) (data tail : Bytes)
    (r : Except Bencode.Fault (Option Bytes × γ)) (m : Checked (Option Nat × δ)) : Prop :=
  match r with
  | .ok (next, values) => m = .ok (next.map (place data), array values)
  | .error _ => RunsOff tail data.length (fun x => x.1 = none ∧ ∃ values, x.2 = array values) m

/-- The array of a list, and its length. -/
def itemArray (items : Items) : ObjItems × Nat := (.ofItems items, items.length)

/-- The array of a dictionary, and its length. -/
def pairArray (pairs : Pairs) : ObjPairs × Nat := (.ofPairs pairs, pairs.length)

section Follows

variable {data tail s : Bytes} {p : Nat} {c : UInt8}

theorem RunsOff.bind {α β : Type} {size : Nat} {P : α → Prop} {Q : β → Prop} {m : Checked α}
    {f : α → Checked β} (h : RunsOff tail size P m) (hf : ∀ a, P a → ∃ b, f a = .ok b ∧ Q b) :
    RunsOff tail size Q (m >>= f) := by
  cases tail with
  | nil =>
    have hm : m = .error (.outOfBounds size) := h
    rw [hm]
    rfl
  | cons c tail =>
    rw [RunsOff] at h ⊢
    split at h
    · next hc =>
      rw [if_pos hc, h]
      rfl
    · next hc =>
      obtain ⟨a, ha, hP⟩ := h
      rw [if_neg hc, ha]
      exact hf a hP

theorem RunsOff.mono {α : Type} {size : Nat} {P Q : α → Prop} {m : Checked α}
    (h : RunsOff tail size P m) (hPQ : ∀ a, P a → Q a) : RunsOff tail size Q m := by
  have hbind := h.bind (f := fun a => .ok a) fun a ha => ⟨a, rfl, hPQ a ha⟩
  cases m with
  | error e => exact hbind
  | ok a => exact hbind

theorem Follows.here {r : Except Bencode.Fault Parsed} {m : Checked Left}
    (h : Follows data tail r m) : FollowsHere data tail r m := by
  cases r with
  | ok parsed => exact h
  | error e =>
    have hrun : RunsOff tail data.length _ m := h
    exact hrun.mono fun _ hleft => hleft.1

section Loops

variable {γ δ : Type} {array : γ → δ} {r : Except Bencode.Fault (Option Bytes × γ)}
  {m : Checked (Option Nat × δ)}

/-- A parser stores the values of its loop. -/
theorem FollowsLoop.object (h : FollowsLoop array data tail r m) (value : γ → Ben)
    (object : δ → Obj) (hobject : ∀ values, object (array values) = .ofBen (value values)) :
    Follows data tail (r.bind fun found => .ok ⟨found.1, some (value found.2)⟩)
      (m.bind fun found => .ok ⟨found.1, object found.2⟩) := by
  cases r with
  | error e =>
    refine RunsOff.bind h ?_
    rintro ⟨_, _⟩ ⟨hnext, values, harray⟩
    cases hnext
    cases harray
    exact ⟨_, rfl, rfl, value values, hobject values⟩
  | ok found =>
    have hok : m = .ok (found.1.map (place data), array found.2) := h
    rw [hok]
    show Except.ok _ = _
    rw [hobject]
    rfl

/-- A loop puts the value that it has parsed before those of the rounds that follow. -/
theorem FollowsLoop.cons (h : FollowsLoop array data tail r m) (f : γ → γ) (g : δ → δ)
    (hfg : ∀ values, array (f values) = g (array values)) :
    FollowsLoop array data tail (r.bind fun found => .ok (found.1, f found.2))
      (m.bind fun found => .ok (found.1, g found.2)) := by
  cases r with
  | error e =>
    refine RunsOff.bind h ?_
    rintro ⟨_, _⟩ ⟨hnext, values, harray⟩
    cases hnext
    cases harray
    exact ⟨_, rfl, rfl, f values, (hfg values).symm⟩
  | ok found =>
    have hok : m = .ok (found.1.map (place data), array found.2) := h
    rw [hok]
    show Except.ok _ = _
    rw [← hfg]

end Loops

/-- `parse_string` on the rest of the buffer. -/
theorem parseStringAt_follows (h : RestAt data p s) (tail : Bytes) :
    (parseString s = .failed ∧ parseStringAt (data ++ tail) data.length p = .ok none) ∨
    ∃ a str r, s = a ++ (str ++ r) ∧ parseString s = ⟨some r, some (.str str)⟩ ∧ 0 < a.length ∧
      parseStringAt (data ++ tail) data.length p =
        .ok (some ⟨p + a.length + str.length, p + a.length, str.length⟩) := by
  have hsearch := memchr_eq (h.drop_mem tail) 58
  rw [parseStringAt, h.remaining, hsearch, parseString]
  cases hcolon : CLib.memchr 58 s with
  | none => exact .inl ⟨rfl, rfl⟩
  | some k =>
    obtain ⟨t, u, rfl, _, rfl⟩ := memchr_some hcolon
    have hmem : (data ++ tail).drop p = t ++ 58 :: (u ++ tail) := by
      rw [h.drop_mem, List.append_assoc, List.cons_append]
    have hlength := h.length
    rw [List.length_append, List.length_cons] at hlength
    simp only [bind, Except.bind, Option.map_some, CheckedMemory.strtol_eq stops_colon hmem,
      CLib.strtol_append t u stops_colon, List.length_append, List.length_cons, drop_delimiter]
    by_cases hlen : (CLib.strtol t).1 < 0 ∨
        t.length + (u.length + 1) < t.length + 1 + (CLib.strtol t).1.toNat
    · have hout : (CLib.strtol t).1 < 0 ∨
          p + t.length + 1 + (CLib.strtol t).1.toNat > data.length :=
        hlen.imp_right fun h => by omega
      rw [if_pos hlen, if_pos hout]
      exact .inl ⟨rfl, rfl⟩
    · have hin : ¬((CLib.strtol t).1 < 0 ∨
          p + t.length + 1 + (CLib.strtol t).1.toNat > data.length) := by omega
      have htake : (u.take (CLib.strtol t).1.toNat).length = (CLib.strtol t).1.toNat := by
        rw [List.length_take]
        omega
      rw [if_neg hlen, if_neg hin]
      refine .inr ⟨t ++ [58], u.take (CLib.strtol t).1.toNat, u.drop (CLib.strtol t).1.toNat, ?_,
        rfl, ?_, ?_⟩
      · rw [List.take_append_drop, List.append_assoc, List.singleton_append]
      · rw [List.length_append]
        exact Nat.succ_pos _
      · rw [htake, List.length_append, List.length_singleton, Nat.add_assoc p]
        rfl

/-- `parse_int` on the rest of the buffer. -/
theorem parseIntAt_follows (h : RestAt data p (c :: s)) (tail : Bytes) :
    Follows data tail (.ok (parseInt (c :: s))) (parseIntAt (data ++ tail) data.length p) := by
  have hrest := h.next
  have hsearch := memchr_eq (hrest.drop_mem tail) 101
  have hremaining := hrest.remaining
  rw [Follows, parseIntAt, parseInt, List.tail_cons]
  dsimp only
  rw [hremaining, hsearch]
  cases he : CLib.memchr 101 s with
  | none => rfl
  | some k =>
    obtain ⟨t, u, rfl, _, rfl⟩ := memchr_some he
    have hmem : (data ++ tail).drop (p + 1) = t ++ 101 :: (u ++ tail) := by
      rw [hrest.drop_mem, List.append_assoc, List.cons_append]
    simp only [bind, Except.bind, Option.map_some, CheckedMemory.strtol_eq stops_e hmem,
      CLib.strtol_append t u stops_e, drop_delimiter]
    by_cases hend : (CLib.strtol t).2 = t.length
    · have hplace := (RestAt.skip (a := t) hrest).next.place_eq
      rw [if_neg (by omega), if_neg (by omega)]
      simp only [Option.map_some, hplace]
      rfl
    · rw [if_pos (by omega), if_pos hend]
      rfl

/-- The dispatch right behind the buffer. -/
theorem valueAt_end (data tail : Bytes) {fuel : Nat} (hfuel : 3 ≤ fuel) :
    RunsOff tail data.length (fun left => left.next = none)
      (valueAt (data ++ tail) data.length fuel data.length) := by
  obtain ⟨fuel, rfl⟩ : ∃ k, fuel = k + 3 := ⟨fuel - 3, by omega⟩
  have hend : RestAt data data.length [] := ⟨rfl, List.drop_length⟩
  have hmem := hend.drop_mem tail
  rw [List.nil_append] at hmem
  rw [valueAt]
  cases tail with
  | nil =>
    rw [load, hmem]
    rfl
  | cons c tail =>
    rw [load_eq hmem, RunsOff]
    simp only [bind, Except.bind]
    by_cases hi : c = 105
    · subst hi
      have hnegative : ((data.length : Int) - (data.length + 1 : Nat)) < 0 := by omega
      rw [if_pos rfl, if_neg (by decide), if_pos rfl, parseIntAt]
      dsimp only
      rw [CheckedMemory.memchr, if_pos hnegative]
      rfl
    · have hlist : itemsAt (data ++ c :: tail) data.length (fuel + 1) (data.length + 1) =
          .ok (none, .nil, 0) := by
        rw [itemsAt, if_neg (by omega)]
        rfl
      have hdict : pairsAt (data ++ c :: tail) data.length (fuel + 1) (data.length + 1) =
          .ok (none, .nil, 0) := by
        rw [pairsAt, if_neg (by omega)]
        rfl
      rw [if_neg hi]
      by_cases hdigit : Numeral.isDigit 10 c
      · rcases parseStringAt_follows hend (c :: tail) with
          ⟨_, hstring⟩ | ⟨a, str, r, hnil, _, ha, _⟩
        · rw [if_pos hdigit, hstring]
          exact ⟨_, rfl, rfl⟩
        · have hlength := congrArg List.length hnil
          rw [List.length_append, List.length_nil] at hlength
          omega
      · rw [if_neg hdigit, if_neg hi]
        by_cases hl : c = 108
        · rw [if_pos hl, parseListAt, hlist]
          exact ⟨_, rfl, rfl⟩
        · rw [if_neg hl]
          by_cases hd : c = 100
          · rw [if_pos hd, parseDictAt, hdict]
            exact ⟨_, rfl, rfl⟩
          · rw [if_neg hd]
            exact ⟨_, rfl, rfl⟩

theorem parseString_some {s r : Bytes} {obj : Option Ben} (h : parseString s = ⟨some r, obj⟩) :
    ∃ v, obj = some v := by
  rw [parseString] at h
  split at h
  · cases h
  · dsimp only at h
    split at h
    · cases h
    · cases h
      exact ⟨_, rfl⟩

theorem parseInt_some {s r : Bytes} {obj : Option Ben} (h : parseInt s = ⟨some r, obj⟩) :
    ∃ v, obj = some v := by
  rw [parseInt] at h
  dsimp only at h
  split at h
  · cases h
  · split at h
    · cases h
    · cases h
      exact ⟨_, rfl⟩

/-- `parse_list` stores the list, whether it fails or not. -/
theorem parseList_stored {fuel : Nat} {s : Bytes} {parsed : Parsed}
    (h : parseList fuel s = .ok parsed) : ∃ v, parsed.obj = some v := by
  cases fuel with
  | zero => cases h
  | succ fuel =>
    obtain ⟨⟨next, items⟩, _, hret⟩ := bind_eq_ok h
    cases hret
    exact ⟨_, rfl⟩

/-- So does `parse_dict`. -/
theorem parseDict_stored {fuel : Nat} {s : Bytes} {parsed : Parsed}
    (h : parseDict fuel s = .ok parsed) : ∃ v, parsed.obj = some v := by
  cases fuel with
  | zero => cases h
  | succ fuel =>
    obtain ⟨⟨next, pairs⟩, _, hret⟩ := bind_eq_ok h
    cases hret
    exact ⟨_, rfl⟩

/-- A parser that returns a pointer has stored a value. -/
theorem parseValue_some {fuel : Nat} {s r : Bytes} {obj : Option Ben}
    (h : parseValue fuel s = .ok ⟨some r, obj⟩) : ∃ v, obj = some v := by
  cases s with
  | nil => cases fuel <;> cases h
  | cons c s =>
    cases fuel with
    | zero => cases h
    | succ fuel =>
      rw [parseValue] at h
      split at h
      · exact parseString_some (Except.ok.inj h)
      · split at h
        · exact parseInt_some (Except.ok.inj h)
        · split at h
          · exact parseList_stored h
          · split at h
            · exact parseDict_stored h
            · cases h

/-- A value that would start right behind the buffer is none on lists. -/
theorem valueAt_here (tail : Bytes) (fuel : Nat) (h : RestAt data p s) (hfuel : 3 ≤ fuel)
    (hvalue : s ≠ [] → Follows data tail (parseValue fuel s)
      (valueAt (data ++ tail) data.length fuel p)) :
    FollowsHere data tail (parseValue fuel s) (valueAt (data ++ tail) data.length fuel p) := by
  cases s with
  | nil =>
    have hplace := h.place_eq
    rw [place, List.length_nil, Nat.sub_zero] at hplace
    have herror : parseValue fuel [] = .error .outOfBounds := by cases fuel <;> rfl
    rw [herror, ← hplace]
    exact valueAt_end data tail hfuel
  | cons c s => exact (hvalue (List.cons_ne_nil c s)).here

mutual
/-- On a value that starts in the buffer. -/
theorem valueAt_follows (data tail : Bytes) : ∀ (fuel : Nat) {p : Nat} {c : UInt8} {s : Bytes},
    RestAt data p (c :: s) → 3 * (c :: s).length < fuel →
    Follows data tail (parseValue fuel (c :: s)) (valueAt (data ++ tail) data.length fuel p)
  | 0, _, _, _, _, hf => absurd hf (Nat.not_lt_zero _)
  | fuel + 1, p, c, s, h, hf => by
    have hload := load_eq (h.drop_mem tail)
    rw [List.length_cons] at hf
    rw [valueAt, hload, parseValue]
    simp only [bind, Except.bind]
    by_cases hdigit : Numeral.isDigit 10 c
    · rw [if_pos hdigit, if_pos hdigit]
      rcases parseStringAt_follows h tail with ⟨hlist, hmem⟩ | ⟨a, str, r, hs, hlist, _, hmem⟩
      · rw [hlist, hmem]
        rfl
      · rw [hs] at h
        have hdata := h.skip.drop_mem tail
        rw [List.append_assoc] at hdata
        rw [hlist, hmem]
        show Except.ok (Left.mk (some (p + a.length + str.length)) (.mk (some .string)
          (.string (((data ++ tail).drop (p + a.length)).take str.length)))) = _
        rw [hdata, List.take_left, Option.map_some, h.skip.skip.place_eq]
        rfl
    · rw [if_neg hdigit, if_neg hdigit]
      by_cases hi : c = 105
      · rw [if_pos hi, if_pos hi]
        exact parseIntAt_follows h tail
      · rw [if_neg hi, if_neg hi]
        obtain ⟨fuel, rfl⟩ : ∃ k, fuel = k + 1 := ⟨fuel - 1, by omega⟩
        by_cases hl : c = 108
        · have hitems := itemsAt_follows data tail fuel h.next (by omega)
          rw [if_pos hl, if_pos hl, parseListAt, parseList, List.tail_cons]
          exact hitems.object .list (fun found => .mk (some .list) (.list found.1 found.2))
            fun _ => rfl
        · rw [if_neg hl, if_neg hl]
          by_cases hd : c = 100
          · have hpairs := pairsAt_follows data tail fuel h.next (by omega)
            rw [if_pos hd, if_pos hd, parseDictAt, parseDict, List.tail_cons]
            exact hpairs.object .dict (fun found => .mk (some .dict) (.dict found.1 found.2))
              fun _ => rfl
          · rw [if_neg hd, if_neg hd]
            rfl

/-- On the items in the rest of the buffer. -/
theorem itemsAt_follows (data tail : Bytes) : ∀ (fuel : Nat) {p : Nat} {s : Bytes},
    RestAt data p s → 3 * s.length + 1 < fuel →
    FollowsLoop itemArray data tail (parseItems fuel s) (itemsAt (data ++ tail) data.length fuel p)
  | 0, _, _, _, hf => absurd hf (Nat.not_lt_zero _)
  | fuel + 1, p, [], h, _ => by
    have hend : ¬p < data.length := by
      have := h.length
      rw [List.length_nil] at this
      omega
    rw [itemsAt, if_neg hend, parseItems]
    rfl
  | fuel + 1, p, c :: s, h, hf => by
    have hload := load_eq (h.drop_mem tail)
    have hlength := h.length
    rw [List.length_cons] at hlength hf
    rw [itemsAt, if_pos (by omega), hload, parseItems]
    simp only [bind, Except.bind]
    by_cases he : c = 101
    · rw [if_pos he, if_pos he, ← h.next.place_eq]
      rfl
    · have hvalue := valueAt_follows data tail fuel h (by rw [List.length_cons]; omega)
      rw [if_neg he, if_neg he]
      cases hr : parseValue fuel (c :: s) with
      | error e =>
        rw [hr] at hvalue
        refine RunsOff.bind hvalue ?_
        rintro ⟨next, obj⟩ ⟨hnext, _⟩
        cases hnext
        exact ⟨_, rfl, rfl, .nil, rfl⟩
      | ok parsed =>
        rw [hr] at hvalue
        obtain ⟨next, obj⟩ := parsed
        have hok : valueAt (data ++ tail) data.length fuel p =
          .ok ⟨next.map (place data), .ofStored obj⟩ := hvalue
        rw [hok]
        cases next with
        | none => rfl
        | some r =>
          obtain ⟨item, rfl⟩ := parseValue_some hr
          obtain ⟨a, ha, hspells⟩ := parseValue_inv fuel hr
          have hpos := spells_length hspells
          have hsum := congrArg List.length ha
          rw [List.length_append, List.length_cons] at hsum
          rw [ha] at h
          have hitems := itemsAt_follows data tail fuel h.skip (by omega)
          rw [← h.skip.place_eq] at hitems
          exact hitems.cons (.cons item) (fun found => (.cons (.ofBen item) found.1, found.2 + 1))
            fun _ => rfl

/-- On the pairs in the rest of the buffer. -/
theorem pairsAt_follows (data tail : Bytes) : ∀ (fuel : Nat) {p : Nat} {s : Bytes},
    RestAt data p s → 3 * s.length + 1 < fuel →
    FollowsLoop pairArray data tail (parsePairs fuel s) (pairsAt (data ++ tail) data.length fuel p)
  | 0, _, _, _, hf => absurd hf (Nat.not_lt_zero _)
  | fuel + 1, p, [], h, _ => by
    have hend : ¬p < data.length := by
      have := h.length
      rw [List.length_nil] at this
      omega
    rw [pairsAt, if_neg hend, parsePairs]
    rfl
  | fuel + 1, p, c :: s, h, hf => by
    have hload := load_eq (h.drop_mem tail)
    have hlength := h.length
    rw [List.length_cons] at hlength hf
    rw [pairsAt, if_pos (by omega), hload, parsePairs]
    simp only [bind, Except.bind]
    by_cases he : c = 101
    · rw [if_pos he, if_pos he, ← h.next.place_eq]
      rfl
    · rw [if_neg he, if_neg he]
      rcases parseStringAt_follows h tail with ⟨hlist, hmem⟩ | ⟨a, key, r, hs, hlist, hpos, hmem⟩
      · rw [hlist, hmem]
        rfl
      · have hsum := congrArg List.length hs
        rw [List.length_cons, List.length_append, List.length_append] at hsum
        rw [hs] at h
        have hdata := h.skip.drop_mem tail
        rw [List.append_assoc] at hdata
        rw [hlist, hmem]
        dsimp only
        rw [CheckedMemory.copy_eq hdata]
        dsimp only
        have hvalue := valueAt_here tail fuel h.skip.skip (by omega) fun hne => by
          obtain ⟨x, r, rfl⟩ := List.exists_cons_of_ne_nil hne
          exact valueAt_follows data tail fuel h.skip.skip (by omega)
        cases hr : parseValue fuel r with
        | error e =>
          rw [hr] at hvalue
          refine RunsOff.bind hvalue ?_
          rintro ⟨next, obj⟩ hnext
          cases hnext
          exact ⟨_, rfl, rfl, .nil, rfl⟩
        | ok parsed =>
          rw [hr] at hvalue
          obtain ⟨next, obj⟩ := parsed
          have hok : valueAt (data ++ tail) data.length fuel (p + a.length + key.length) =
            .ok ⟨next.map (place data), .ofStored obj⟩ := hvalue
          rw [hok]
          cases next with
          | none => rfl
          | some r' =>
            obtain ⟨value, rfl⟩ := parseValue_some hr
            obtain ⟨b, hb, hspells⟩ := parseValue_inv fuel hr
            have hsum' := congrArg List.length hb
            rw [List.length_append] at hsum'
            have hrest := h.skip.skip
            rw [hb] at hrest
            have hpairs := pairsAt_follows data tail fuel hrest.skip (by omega)
            rw [← hrest.skip.place_eq] at hpairs
            exact hpairs.cons (.cons key value)
              (fun found => (.cons key (.ofBen value) found.1, found.2 + 1)) fun _ => rfl
end

end Follows

end CourseWork.Bencode
