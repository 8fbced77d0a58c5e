import RobinHoodHashmap.Run

/-!
# The copy of the library project

`src/RobinHood_Hashmap/RobinHood_Hashmap.h` is a second copy of the class template, for `uint64_t` in
its rehash.  Scans, `find`, `erase`, `clear` and the constructors read as in the shipped header, with
`hasher(key)` for the application of the hasher.  Four places differ: the logarithm table is
unsigned, `insert` makes the header of a new entry from the key where `_insert_new` takes the hash,
`_insert_new` names the integer types, and `operator[]` inserts the literal zero.
-/

namespace RobinHoodHashmap

/-- `uint64_t` keys and values under a hash function. -/
def wordTraits (hasher : BitVec 64 → BitVec 64) : Traits (BitVec 64) (BitVec 64) :=
  { tempHash with hasher }

/-- The copy instantiated with `uint64_t` keys and values. -/
abbrev WordMap := Hashmap (BitVec 64) (BitVec 64)

namespace Library

/-- Read `LogTable256[index]`, whose entries are `uint8_t` here. -/
def logEntry (index : BitVec 32) : BitVec 32 := (logTable256.getD index.toNat 0).setWidth 32

/-- `log2`. -/
def log2 (v : BitVec 32) : BitVec 32 :=
  let tt := v >>> 16
  if tt ≠ 0 then
    let t := tt >>> 8
    if t ≠ 0 then 24 + logEntry t else 16 + logEntry tt
  else
    let t := v >>> 8
    if t ≠ 0 then 8 + logEntry t else logEntry v

variable (hasher : BitVec 64 → BitVec 64)

/-- `robin_hood_hashmap(uint32_t capacity)`. -/
def construct (capacity : BitVec 32) : Exec WordMap :=
  let maxOffset := log2 capacity
  if maxOffset.toNat < 64 then
    pure
      { count := 0#32
        capacity
        maxOffset
        bitMask := constructorMask maxOffset
        memory := calloc (wordTraits hasher) capacity
        allocated := length_calloc (wordTraits hasher) capacity }
  else Execution.fault .undefinedShift

/-- Write a new pair into a free slot and count it; `bits` is what `_make_header` is given. -/
def placeUnder (s : WordMap) (nth : Nat) (block : Block (BitVec 64) (BitVec 64))
    (emptyIdx : BitVec 32) (homeIndex bits key value : BitVec 64) : Exec WordMap :=
  if inside : emptyIdx.toNat < 32 then
    pure ((s.setBlock nth
      (block.fill ⟨emptyIdx.toNat, inside⟩ (slotHeader emptyIdx homeIndex bits)
        key value)).withCount (s.count + 1))
  else Execution.fault .outOfBounds

/-- The state `_resize` builds before rehashing. -/
def doubled (s : WordMap) : WordMap :=
  { count := s.count
    capacity := s.capacity <<< 1
    maxOffset := log2 (s.capacity <<< 1)
    bitMask := resizeMask (log2 (s.capacity <<< 1))
    memory := calloc (wordTraits hasher) (s.capacity <<< 1)
    allocated := length_calloc (wordTraits hasher) (s.capacity <<< 1) }

mutual

/-- `insert`, with a bound on the depth of calls. -/
def insertWithin : Nat → WordMap → BitVec 64 → BitVec 64 → Exec WordMap
  | 0, _, _, _ => Execution.fault .outOfFuel
  | depth + 1, s, key, value => do
      let hash := hasher key
      let home := home hash s.bitMask
      let nth := (nthHeaderBlock home).toNat
      let block ← headerBlock (wordTraits hasher) s nth
      let res ← searchBlock block key (homeIndex home) hash
      match res with
      | some slot => pure (s.setBlock nth (block.setValue slot value))
      | none =>
          let emptyIdx := emptyIndex block
          if emptyIdx = 32#32 then do
            let s ← resizeWithin depth s
            insertNewWithin depth s key value
          else placeUnder s nth block emptyIdx (homeIndex home) key key value

/-- `_resize`, with a bound on the depth of calls. -/
def resizeWithin : Nat → WordMap → Exec WordMap
  | 0, _ => Execution.fault .outOfFuel
  | depth + 1, s => do
      Execution.emit s.capacity
      if (log2 (s.capacity <<< 1)).toNat < 32 then do
        let filled ← (List.range (s.capacity >>> 5).toNat).foldlM
          (rehashBlock (wordTraits hasher) (insertNewWithin depth) s) (doubled hasher s)
        pure (filled.withCount s.count)
      else Execution.fault .undefinedShift

/-- `_insert_new`, with a bound on the depth of calls. -/
def insertNewWithin : Nat → WordMap → BitVec 64 → BitVec 64 → Exec WordMap
  | 0, _, _, _ => Execution.fault .outOfFuel
  | depth + 1, s, key, value => do
      let hash := hasher key
      let home := home hash s.bitMask
      let nth := (nthHeaderBlock home).toNat
      let block ← headerBlock (wordTraits hasher) s nth
      let emptyIdx := emptyIndex block
      if emptyIdx = 32#32 then do
        let s ← resizeWithin depth s
        insertWithin depth s key value
      else placeUnder s nth block emptyIdx (homeIndex home) hash key value

end

/-- `insert`. -/
def insert (s : WordMap) (key value : BitVec 64) : Exec WordMap :=
  insertWithin hasher callDepth s key value

/-- `find`. -/
def find (s : WordMap) (key : BitVec 64) : Exec (Option Place) :=
  RobinHoodHashmap.find (wordTraits hasher) s key

/-- `erase`. -/
def erase (s : WordMap) (key : BitVec 64) : Exec (BitVec 64 × WordMap) :=
  RobinHoodHashmap.erase (wordTraits hasher) s key

/-- `operator[]`: the place its reference names. -/
def index (s : WordMap) (key : BitVec 64) : Exec (Place × WordMap) := do
  let res ← find hasher s key
  let s ← match res with
    | some _ => pure s
    | none => insert hasher s key 0#64
  findAgain (wordTraits hasher) s key

/-- One call. -/
def step (s : WordMap) : Op (BitVec 64) (BitVec 64) → Exec (Answer (BitVec 64) × WordMap)
  | .insert key value => do
      let s ← insert hasher s key value
      pure (.done, s)
  | .find key => do
      let res ← find hasher s key
      match res with
      | some place => do
          let value ← readValue (wordTraits hasher) s place
          pure (.pointer (some value), s)
      | none => pure (.pointer none, s)
  | .erase key => do
      let (value, s) ← erase hasher s key
      pure (.value value, s)
  | .read key => do
      let (place, s) ← index hasher s key
      let value ← readValue (wordTraits hasher) s place
      pure (.value value, s)
  | .write key value => do
      let (place, s) ← index hasher s key
      let s ← writeValue (wordTraits hasher) s place value
      pure (.done, s)
  | .clear => pure (.done, clear (wordTraits hasher) s)
  | .copy => pure (.done, copyConstruct (wordTraits hasher) s)
  | .size => pure (.size (size s).toNat, s)

/-- A sequence of calls. -/
def run (s : WordMap) : List (Op (BitVec 64) (BitVec 64)) →
    Exec (List (Answer (BitVec 64)) × WordMap)
  | [] => pure ([], s)
  | op :: ops => do
      let (answer, s) ← step hasher s op
      let (answers, s) ← run s ops
      pure (answer :: answers, s)

/-- Construct a map and run calls on it. -/
def session (capacity : BitVec 32) (ops : List (Op (BitVec 64) (BitVec 64))) :
    Exec (List (Answer (BitVec 64)) × WordMap) := do
  let s ← construct hasher capacity
  run hasher s ops

end Library

end RobinHoodHashmap
