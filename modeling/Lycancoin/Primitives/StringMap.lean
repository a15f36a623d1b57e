import Lycancoin.Primitives.RoundTrip

namespace Lycancoin

open Lycancoin.Data

abbrev StdString := List UInt8

def stdString (text : String) : StdString := text.toList.map fun c => UInt8.ofNat c.toNat

abbrev StringMap := Std.ExtTreeMap StdString StdString

def serializeString (str : StdString) : List UInt8 := writeCompactSize str.length ++ str

def unserializeString : ByteReader StdString := do
  let nSize ← readCompactSize
  Reader.take .endOfData nSize

def serializePair (item : StdString × StdString) : List UInt8 :=
  serializeString item.1 ++ serializeString item.2

def unserializePair : ByteReader (StdString × StdString) := do
  let first ← unserializeString
  let second ← unserializeString
  pure (first, second)

/-- `Serialize` of a map, in the order of its keys. -/
def serializeMap (map : StringMap) : List UInt8 :=
  writeCompactSize map.size ++ map.toList.flatMap serializePair

/-- The loop of `Unserialize` of a map, which keeps the first item of a key. -/
def insertAll (items : List (StdString × StdString)) : StringMap :=
  items.foldl (fun map item => map.insertIfNew item.1 item.2) ∅

def unserializeMap : ByteReader StringMap := do
  let nSize ← readCompactSize
  let items ← Reader.many unserializePair nSize
  pure (insertAll items)

/-- The sizes with which strings and maps are read back. -/
structure PairWithinMaxSize (item : StdString × StdString) : Prop where
  first : item.1.length ≤ MAX_SIZE
  second : item.2.length ≤ MAX_SIZE

structure MapWithinMaxSize (map : StringMap) : Prop where
  size : map.size ≤ MAX_SIZE
  items : ∀ item ∈ map.toList, PairWithinMaxSize item

theorem inverse_unserializeString :
    Inverse unserializeString serializeString (fun str => str.length ≤ MAX_SIZE) := by
  have bytes : Inverse unserializeString (fun str => writeCompactSize str.length ++ id str)
      (fun str => str.length ≤ MAX_SIZE ∧ True) := by
    apply inverse_readCompactSize.bind List.length
    intro nSize _
    exact (Inverse.take _ nSize).congr (fun _ _ => rfl) fun _ => iff_of_eq (and_true _)
  exact bytes.congr (fun _ _ => rfl) fun _ => iff_of_eq (and_true _).symm

theorem inverse_unserializePair :
    Inverse unserializePair serializePair PairWithinMaxSize where
  reads item fits :=
    (inverse_unserializeString.reads item.1 fits.first).bind
      (inverse_unserializeString.reads item.2 fits.second).bind_pure
  accepts stream item rest returns := by
    obtain ⟨first, _, one, returns⟩ := Reader.run_bind_eq_ok.mp returns
    obtain ⟨second, _, two, returns⟩ := Reader.run_bind_eq_ok.mp returns
    obtain ⟨rfl, rfl⟩ := Reader.run_pure_eq_ok.mp returns
    obtain ⟨rfl, fits⟩ := inverse_unserializeString.accepts _ _ _ one
    obtain ⟨rfl, fits'⟩ := inverse_unserializeString.accepts _ _ _ two
    exact ⟨by rw [serializePair, List.append_assoc], fits, fits'⟩

theorem getElem?_foldl_insertIfNew (items : List (StdString × StdString)) (map : StringMap)
    (key : StdString) :
    (items.foldl (fun map item => map.insertIfNew item.1 item.2) map)[key]? =
      map[key]?.or (items.lookup key) := by
  induction items generalizing map with
  | nil => simp
  | cons item rest ih =>
      obtain ⟨name, text⟩ := item
      rw [List.foldl_cons, ih, Std.ExtTreeMap.getElem?_insertIfNew, List.lookup_cons]
      by_cases same : name = key
      · subst same
        cases found : map[name]? with
        | none =>
            have absent : name ∉ map := by simpa using found
            simp [absent]
        | some value =>
            have present : name ∈ map := by
              rw [Std.ExtTreeMap.mem_iff_isSome_getElem?, found]
              rfl
            simp [present]
      · have other : (key == name) = false := by simpa using fun eq => same eq.symm
        simp [same, other]

theorem lookup_toList (map : StringMap) (key : StdString) :
    map.toList.lookup key = map[key]? := by
  cases found : map.toList.lookup key with
  | none =>
      rw [List.lookup_eq_none_iff] at found
      cases value : map[key]? with
      | none => rfl
      | some text =>
          have apart := found (key, text)
            (Std.ExtTreeMap.mem_toList_iff_getElem?_eq_some.2 value)
          simp at apart
  | some text =>
      obtain ⟨front, back, split, -⟩ := List.lookup_eq_some_iff.1 found
      have member : (key, text) ∈ map.toList := by simp [split]
      exact (Std.ExtTreeMap.mem_toList_iff_getElem?_eq_some.1 member).symm

/-- A map is made again from its items. -/
theorem insertAll_toList (map : StringMap) : insertAll map.toList = map := by
  apply Std.ExtTreeMap.ext_getElem?
  intro key
  rw [insertAll, getElem?_foldl_insertIfNew, lookup_toList]
  simp

theorem reads_unserializeMap {map : StringMap} (fits : MapWithinMaxSize map) :
    Reads unserializeMap (serializeMap map) map := by
  have count := inverse_readCompactSize.reads map.size fits.size
  have items := Reads.many fun item member =>
    inverse_unserializePair.reads item (fits.items item member)
  rw [Std.ExtTreeMap.length_toList] at items
  have built : Reads (do
      let items ← Reader.many unserializePair map.size
      pure (insertAll items)) (map.toList.flatMap serializePair) (insertAll map.toList) :=
    items.bind_pure
  rw [insertAll_toList] at built
  exact count.bind built

theorem readCompactSize_back {nSize nSize' : Nat} {stream rest : List UInt8}
    (returns : readCompactSize.run (writeCompactSize nSize ++ stream) = .ok (nSize', rest)) :
    nSize ≤ MAX_SIZE := by
  obtain ⟨split, small⟩ := inverse_readCompactSize.accepts _ _ _ returns
  rw [writeCompactSize_eq, writeCompactSize_eq, List.append_assoc, List.append_assoc] at split
  obtain ⟨markers, behind⟩ := List.append_inj split (by simp)
  have marker := congrArg littleEndian markers
  rw [littleEndian_serWriteData (sizeMarker_lt _), littleEndian_serWriteData (sizeMarker_lt _)]
    at marker
  unfold MAX_SIZE at small ⊢
  by_contra big
  unfold sizeMarker at marker
  have four : nSize ≤ 0xffffffff ∧ 0xffff < nSize' := by
    split_ifs at marker <;> omega
  rw [sizeBehind, if_neg (by omega), if_neg (by omega), if_pos four.1, sizeBehind,
    if_neg (by omega), if_neg (by omega), if_pos (by omega)] at behind
  have words := congrArg littleEndian (List.append_inj behind (by simp)).1
  rw [littleEndian_serWriteData (by omega), littleEndian_serWriteData (by omega)] at words
  omega

theorem unserializeString_back {str str' : StdString} {stream rest : List UInt8}
    (returns : unserializeString.run (serializeString str ++ stream) = .ok (str', rest)) :
    str.length ≤ MAX_SIZE := by
  obtain ⟨nSize, _, counted, -⟩ := Reader.run_bind_eq_ok.mp returns
  rw [serializeString, List.append_assoc] at counted
  exact readCompactSize_back counted

theorem unserializePair_back {item item' : StdString × StdString} {stream rest : List UInt8}
    (returns : unserializePair.run (serializePair item ++ stream) = .ok (item', rest)) :
    PairWithinMaxSize item := by
  obtain ⟨first, middle, one, returns⟩ := Reader.run_bind_eq_ok.mp returns
  rw [serializePair, List.append_assoc] at one
  have fits := unserializeString_back one
  rw [inverse_unserializeString.reads item.1 fits] at one
  cases one
  obtain ⟨second, _, two, -⟩ := Reader.run_bind_eq_ok.mp returns
  exact ⟨fits, unserializeString_back two⟩

theorem many_unserializePair_back {items items' : List (StdString × StdString)}
    {stream rest : List UInt8}
    (returns : (Reader.many unserializePair items.length).run
      (items.flatMap serializePair ++ stream) = .ok (items', rest)) :
    ∀ item ∈ items, PairWithinMaxSize item := by
  induction items generalizing items' rest with
  | nil => simp
  | cons item others ih =>
      obtain ⟨first, middle, one, returns⟩ := Reader.run_bind_eq_ok.mp returns
      rw [List.flatMap_cons, List.append_assoc] at one
      have fits := unserializePair_back one
      rw [inverse_unserializePair.reads item fits] at one
      cases one
      obtain ⟨more, _, behind, -⟩ := Reader.run_bind_eq_ok.mp returns
      exact List.forall_mem_cons.mpr ⟨fits, ih behind⟩

theorem unserializeMap_back {map map' : StringMap} {stream rest : List UInt8}
    (returns : unserializeMap.run (serializeMap map ++ stream) = .ok (map', rest)) :
    MapWithinMaxSize map := by
  obtain ⟨nSize, middle, counted, returns⟩ := Reader.run_bind_eq_ok.mp returns
  rw [serializeMap, List.append_assoc] at counted
  have few := readCompactSize_back counted
  rw [inverse_readCompactSize.reads map.size few] at counted
  cases counted
  obtain ⟨items, _, listed, -⟩ := Reader.run_bind_eq_ok.mp returns
  rw [← Std.ExtTreeMap.length_toList] at listed
  exact ⟨few, many_unserializePair_back listed⟩

theorem length_le_flatMap_serializePair {items : List (StdString × StdString)} :
    items.length ≤ (items.flatMap serializePair).length ∧
      ∀ item ∈ items, (serializePair item).length ≤ (items.flatMap serializePair).length := by
  induction items with
  | nil => simp
  | cons item rest ih =>
      have sized : 0 < (serializePair item).length := by
        simp only [serializePair, serializeString, List.length_append, length_writeCompactSize]
        unfold getSizeOfCompactSize
        split_ifs <;> omega
      simp only [List.flatMap_cons, List.length_append, List.length_cons, List.mem_cons,
        forall_eq_or_imp]
      refine ⟨by omega, by omega, ?_⟩
      intro other member
      have behind := ih.2 other member
      omega

theorem mapWithinMaxSize_of_length {map : StringMap}
    (short : (serializeMap map).length ≤ MAX_SIZE) : MapWithinMaxSize map := by
  obtain ⟨count, each⟩ := @length_le_flatMap_serializePair map.toList
  rw [Std.ExtTreeMap.length_toList] at count
  rw [serializeMap, List.length_append] at short
  constructor
  · omega
  · intro item member
    have bytes := each item member
    simp only [serializePair, serializeString, List.length_append] at bytes
    constructor <;> omega

end Lycancoin
