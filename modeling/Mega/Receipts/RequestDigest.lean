/-
# What the digest of a request tells apart

A row of the push queue carries its payload as JSON whose objects have their
members in any order. `hash_json` takes the members in the order of their keys, so
what is hashed is the encoding of the payload with its members sorted and its
numbers printed. Together with the other columns, each of which can be read off
the front, the bytes that are hashed determine the row up to the order of members.

The id of the row is hashed as the decimal text of the operation id. How a number
is printed is a parameter: it is all that is hashed of a number.

Key definitions: `hashValue`, `sortedJson`, `TrunkRow`, `digestInput`,
`TrunkRow.Agree`.
Key theorems: `hashJson_sortedJson`, `sortedJson_eq_iff`, `digestInput_eq_iff`.
-/
import Mega.Json.Meaning
import Mega.Receipts.Request

namespace Mega
namespace Receipts

open List View PrefixCode

/-! ### Hashing JSON whose members come in any order -/

section Values

variable {N : Type} (print : N → Text)

/-- The fields of an object, each key before what is hashed of its value. -/
def joinFields (fields : List (Text × List UInt8)) : List UInt8 := fields.flatMap fun f => hashField f.1 ++ f.2

mutual

/-- `hash_json`. -/
def hashValue : Json.Value N → List UInt8
  | .null => [0]
  | .bool b => [1, if b then 1 else 0]
  | .number n => 2 :: hashField (print n)
  | .string s => 3 :: hashField s
  | .array items => 4 :: (leBytes 8 items.length ++ hashValues items)
  | .object members =>
    5 :: (leBytes 8 members.length ++ joinFields (KeySort.sortBy Prod.fst (hashMembers members)))

def hashValues : List (Json.Value N) → List UInt8
  | [] => []
  | v :: items => hashValue v ++ hashValues items

/-- Each key with what is hashed of its value. -/
def hashMembers : List (Text × Json.Value N) → List (Text × List UInt8)
  | [] => []
  | (key, v) :: members => (key, hashValue v) :: hashMembers members

end

theorem hashValues_eq_flatMap : ∀ items : List (Json.Value N), hashValues print items = items.flatMap (hashValue print)
  | [] => rfl
  | v :: items => by rw [hashValues, hashValues_eq_flatMap items, flatMap_cons]

theorem hashMembers_eq_map : ∀ members : List (Text × Json.Value N),
    hashMembers print members = members.map fun m => (m.1, hashValue print m.2)
  | [] => rfl
  | (key, v) :: members => by rw [hashMembers, hashMembers_eq_map members, map_cons]

mutual

/-- All lengths fit in 64 bits, and no object has a key twice. -/
def Fits : Json.Value N → Prop
  | .number n => FitsText (print n)
  | .string s => FitsText s
  | .array items => items.length < 2 ^ 64 ∧ FitsValues items
  | .object members => members.length < 2 ^ 64 ∧ (members.map Prod.fst).Nodup ∧ FitsMembers members
  | _ => True

def FitsValues : List (Json.Value N) → Prop
  | [] => True
  | v :: items => Fits v ∧ FitsValues items

def FitsMembers : List (Text × Json.Value N) → Prop
  | [] => True
  | (key, v) :: members => (FitsText key ∧ Fits v) ∧ FitsMembers members

end

theorem fitsValues_iff : ∀ items : List (Json.Value N), FitsValues print items ↔ ∀ v ∈ items, Fits print v
  | [] => by simp [FitsValues]
  | v :: items => by rw [FitsValues, fitsValues_iff items, forall_mem_cons]

theorem fitsMembers_iff : ∀ members : List (Text × Json.Value N),
    FitsMembers print members ↔ ∀ m ∈ members, FitsText m.1 ∧ Fits print m.2
  | [] => by simp [FitsMembers]
  | (key, v) :: members => by rw [FitsMembers, fitsMembers_iff members, forall_mem_cons]

theorem legal_of_fits (v : Json.Value N) (h : Fits print v) : v.Legal fun _ => True := by
  induction v using Json.Value.inductionOn with
  | null => trivial
  | bool b => trivial
  | number n => trivial
  | string s => trivial
  | array items ih =>
    rw [Fits, fitsValues_iff] at h
    rw [Json.Value.Legal, Json.legalItems_iff]
    exact fun v hv => ih v hv (h.2 v hv)
  | object members ih =>
    rw [Fits, fitsMembers_iff] at h
    rw [Json.Value.Legal, Json.legalMembers_iff]
    exact ⟨h.2.1, fun m hm => ih m hm (h.2.2 m hm).2⟩

end Values

/-! ### Sorted members, printed numbers -/

mutual

/-- A canonical form as the JSON that is hashed. -/
def ofCanonical : Json.Canonical → Json
  | .null => .null
  | .bool b => .bool b
  | .number text => .number text
  | .string s => .string s
  | .array items => .array (ofItems items)
  | .object members => .object (ofMembers members)

def ofItems : List Json.Canonical → List Json
  | [] => []
  | c :: items => ofCanonical c :: ofItems items

def ofMembers : List (Text × Json.Canonical) → List (Text × Json)
  | [] => []
  | (key, c) :: members => (key, ofCanonical c) :: ofMembers members

end

mutual

theorem ofCanonical_injective : ∀ {a b : Json.Canonical}, ofCanonical a = ofCanonical b → a = b
  | .null, b, h => by cases b <;> simp_all [ofCanonical]
  | .bool _, b, h => by cases b <;> simp_all [ofCanonical]
  | .number _, b, h => by cases b <;> simp_all [ofCanonical]
  | .string _, b, h => by cases b <;> simp_all [ofCanonical]
  | .array items, b, h => by
    cases b with
    | array items' => rw [ofItems_injective (Json.array.inj h)]
    | _ => simp [ofCanonical] at h
  | .object members, b, h => by
    cases b with
    | object members' => rw [ofMembers_injective (Json.object.inj h)]
    | _ => simp [ofCanonical] at h

theorem ofItems_injective : ∀ {as bs : List Json.Canonical}, ofItems as = ofItems bs → as = bs
  | [], [], _ => rfl
  | a :: as, b :: bs, h => by
    obtain ⟨hfirst, hrest⟩ := cons.inj h
    rw [ofCanonical_injective hfirst, ofItems_injective hrest]

theorem ofMembers_injective : ∀ {as bs : List (Text × Json.Canonical)}, ofMembers as = ofMembers bs → as = bs
  | [], [], _ => rfl
  | (key, a) :: as, (key', b) :: bs, h => by
    obtain ⟨hfirst, hrest⟩ := cons.inj h
    obtain ⟨hkey, hvalue⟩ := Prod.mk.inj hfirst
    rw [hkey, ofCanonical_injective hvalue, ofMembers_injective hrest]

end

theorem ofItems_eq_map : ∀ items : List Json.Canonical, ofItems items = items.map ofCanonical
  | [] => rfl
  | c :: items => by rw [ofItems, ofItems_eq_map items, map_cons]

theorem ofMembers_eq_map : ∀ members : List (Text × Json.Canonical),
    ofMembers members = members.map fun m => (m.1, ofCanonical m.2)
  | [] => rfl
  | (key, c) :: members => by rw [ofMembers, ofMembers_eq_map members, map_cons]

/-- The order of `sort_unstable`, which no two keys leave open. -/
def sortKeys (members : List (Text × Json.Canonical)) : List (Text × Json.Canonical) := KeySort.sortBy Prod.fst members

section Sorted

variable {N : Type} (print : N → Text)

/-- The value with its members sorted and its numbers printed. -/
def sortedJson (v : Json.Value N) : Json := ofCanonical (v.canonicalBy sortKeys print)

theorem sortedJson_array (items : List (Json.Value N)) :
    sortedJson print (.array items) = .array (items.map (sortedJson print)) := by
  rw [sortedJson, Json.Value.canonicalBy, ofCanonical, ofItems_eq_map, Json.canonicalItemsBy_eq_map, map_map]
  rfl

theorem sortedJson_object (members : List (Text × Json.Value N)) : sortedJson print (.object members) =
    .object ((KeySort.sortBy Prod.fst members).map fun m => (m.1, sortedJson print m.2)) := by
  rw [sortedJson, Json.Value.canonicalBy, ofCanonical, ofMembers_eq_map, Json.canonicalMembersBy_eq_map, sortKeys,
    KeySort.sortBy_fst_map, map_map]
  rfl

theorem hashItems_map (items : List (Json.Value N)) :
    hashItems (items.map (sortedJson print)) = items.flatMap fun v => hashJson (sortedJson print v) := by
  induction items with
  | nil => rfl
  | cons v items ih => rw [map_cons, hashItems, ih, flatMap_cons]

theorem hashFields_map (members : List (Text × Json.Value N)) :
    hashFields (members.map fun m => (m.1, sortedJson print m.2)) =
      joinFields (members.map fun m => (m.1, hashJson (sortedJson print m.2))) := by
  induction members with
  | nil => rfl
  | cons m members ih =>
    rw [map_cons, hashFields, ih, map_cons, joinFields, joinFields, flatMap_cons, append_assoc]

/-- **What is hashed of a value is the encoding of its sorted form.** -/
theorem hashJson_sortedJson (v : Json.Value N) : hashJson (sortedJson print v) = hashValue print v := by
  induction v using Json.Value.inductionOn with
  | null => rfl
  | bool b => rfl
  | number n => rfl
  | string s => rfl
  | array items ih =>
    rw [sortedJson_array, hashJson, hashItems_map, length_map, hashValue, hashValues_eq_flatMap]
    rw [flatMap_congr ih]
  | object members ih =>
    have hsame : ∀ m ∈ KeySort.sortBy Prod.fst members,
        (m.1, hashJson (sortedJson print m.2)) = (m.1, hashValue print m.2) :=
      fun m hm => by rw [ih m ((KeySort.mem_sortBy _).mp hm)]
    rw [sortedJson_object, hashJson, hashFields_map, length_map, KeySort.length_sortBy, hashValue, hashMembers_eq_map,
      KeySort.sortBy_fst_map, map_congr_left hsame]

theorem fitsItems_iff : ∀ items : List Json, FitsItems items ↔ ∀ item ∈ items, item.Fits
  | [] => by simp [FitsItems]
  | item :: items => by rw [FitsItems, fitsItems_iff items, forall_mem_cons]

theorem fitsFields_iff : ∀ fields : List (Text × Json), FitsFields fields ↔ ∀ f ∈ fields, FitsText f.1 ∧ f.2.Fits
  | [] => by simp [FitsFields]
  | (key, value) :: fields => by rw [FitsFields, fitsFields_iff fields, forall_mem_cons, and_assoc]

/-- Keys that are sorted and distinct. -/
theorem pairwise_lt_keys {members : List (Text × Json.Value N)} (h : (members.map Prod.fst).Nodup) :
    ((KeySort.sortBy Prod.fst members).map Prod.fst).Pairwise (· < ·) := by
  have hnodup : ((KeySort.sortBy Prod.fst members).map Prod.fst).Nodup :=
    ((KeySort.sortBy_perm Prod.fst members).map Prod.fst).nodup_iff.mpr h
  have hsorted : ((KeySort.sortBy Prod.fst members).map Prod.fst).Pairwise (· ≤ ·) :=
    pairwise_map.mpr (KeySort.sortBy_pairwise Prod.fst members)
  exact (hsorted.and hnodup).imp fun h => lt_of_le_of_ne h.1 h.2

theorem fits_sortedJson (v : Json.Value N) (h : Fits print v) : (sortedJson print v).Fits := by
  induction v using Json.Value.inductionOn with
  | null => trivial
  | bool b => trivial
  | number n => exact h
  | string s => exact h
  | array items ih =>
    rw [Fits, fitsValues_iff] at h
    rw [sortedJson_array, Json.Fits, length_map, fitsItems_iff, forall_mem_map]
    exact ⟨h.1, fun v hv => ih v hv (h.2 v hv)⟩
  | object members ih =>
    rw [Fits, fitsMembers_iff] at h
    rw [sortedJson_object, Json.Fits, length_map, KeySort.length_sortBy, fitsFields_iff, forall_mem_map, map_map]
    refine ⟨h.1, pairwise_lt_keys h.2.1, fun m hm => ?_⟩
    have hm := (KeySort.mem_sortBy _).mp hm
    exact ⟨(h.2.2 m hm).1, ih m hm (h.2.2 m hm).2⟩

/-- **Two values have the same sorted form exactly if they are the same JSON up to the order of members**, numbers
compared by what is printed. -/
theorem sortedJson_eq_iff {v w : Json.Value N} (hv : Fits print v) (hw : Fits print w) :
    sortedJson print v = sortedJson print w ↔ v.meaningBy print = w.meaningBy print := by
  rw [← Json.canonicalBy_eq_iff (Json.settles_sortBy Function.injective_id) (fun _ _ _ _ => Iff.rfl) v w
    (legal_of_fits print v hv) (legal_of_fits print w hw)]
  exact ⟨ofCanonical_injective, congrArg ofCanonical⟩

end Sorted

/-! ### Operation ids -/

theorem operationIdOf_injective : Function.Injective operationIdOf := by
  intro id id' h
  exact Int.repr_injective (String.toList_injective (append_cancel_left h))

theorem bytesOf_eq_flatMap (s : Text) : bytesOf s = s.flatMap String.utf8EncodeChar := by
  rw [bytesOf, String.toByteArray_ofList, List.utf8Encode, List.data_toByteArray]

theorem length_bytesOf_le (s : Text) : (bytesOf s).length ≤ 4 * s.length := by
  rw [bytesOf_eq_flatMap]
  induction s with
  | nil => exact le_rfl
  | cons c s ih =>
    have hsize := c.utf8Size_le_four
    rw [flatMap_cons, length_append, String.length_utf8EncodeChar, length_cons]
    omega

/-- The operation id of a row whose id is a positive `i64`. -/
theorem fitsText_operationIdOf {id : ℤ} (hpos : 0 < id) (hmax : id < 2 ^ 63) : FitsText (operationIdOf id) := by
  have hdigits : (toString id).toList.length ≤ 19 := by
    rw [String.length_toList, Int.toString_eq_repr, Int.repr_eq_if, if_pos hpos.le]
    exact Nat.repr_length _ 19 (by decide) (by omega)
  have hlength : (operationIdOf id).length ≤ 36 := by
    unfold operationIdOf
    rw [length_append]
    have hstart : "mst2:trunk-queue:".toList.length = 17 := by decide
    omega
  have hbytes := length_bytesOf_le (operationIdOf id)
  unfold FitsText
  omega

/-! ### Rows -/

section Rows

variable {N : Type} {print : N → Text}

/-- A row of the push queue, with its payload as `serde_json::Value`. -/
structure TrunkRow (print : N → Text) extends RowColumns where
  payload : Json.Value N
  idRange : id < 2 ^ 63
  fitsPayload : Fits print payload

/-- The row with its payload sorted. -/
def TrunkRow.queueRow (row : TrunkRow print) : QueueRow where
  toRowColumns := row.toRowColumns
  payload := sortedJson print row.payload
  fitsPayload := fits_sortedJson print row.payload row.fitsPayload

/-- All that `from_trunk_queue` hashes of a row. -/
def digestInput (row : TrunkRow print) (kind : WriterKind) : List UInt8 :=
  requestHasher (operationIdOf row.id) row.path kind ++ (hashField row.operationId ++ (hashField megaBranchName ++
    (hashField row.oldId ++ (hashField row.newId ++ (hashRequester row.requester ++ hashValue print row.payload)))))

/-- `PublicationRequest::from_trunk_queue`; what it reads of the payload does not depend on the order of members. -/
def TrunkRow.request (validScope : Text → Bool) (sha256 : List UInt8 → Text) (row : TrunkRow print) :
    Except ReceiptError PublicationRequest := fromTrunkQueue validScope sha256 row.queueRow

theorem digestInput_eq (row : TrunkRow print) (kind : WriterKind) :
    digestInput row kind = requestBytes row.queueRow kind := by
  rw [digestInput, ← hashJson_sortedJson]
  rfl

/-- Two rows agree in all that makes up a request. -/
structure TrunkRow.Agree (row row' : TrunkRow print) : Prop where
  id : row.id = row'.id
  path : row.path = row'.path
  kind : row.kind = row'.kind
  operationId : row.operationId = row'.operationId
  oldId : row.oldId = row'.oldId
  newId : row.newId = row'.newId
  requester : row.requester = row'.requester
  payload : row.payload.meaningBy print = row'.payload.meaningBy print

theorem TrunkRow.Agree.queueRow {row row' : TrunkRow print} (h : row.Agree row') : row.queueRow = row'.queueRow := by
  have hpayload := (sortedJson_eq_iff print row.fitsPayload row'.fitsPayload).mpr h.payload
  have hcolumns : row.toRowColumns = row'.toRowColumns :=
    RowColumns.ext h.id h.kind h.operationId h.path h.oldId h.newId h.requester
  simp only [TrunkRow.queueRow, hcolumns, hpayload]

theorem TrunkRow.agree_of_queueRow {row row' : TrunkRow print} (h : row.queueRow = row'.queueRow) : row.Agree row' where
  id := congrArg (·.id) h
  path := congrArg (·.path) h
  kind := congrArg (·.kind) h
  operationId := congrArg (·.operationId) h
  oldId := congrArg (·.oldId) h
  newId := congrArg (·.newId) h
  requester := congrArg (·.requester) h
  payload := (sortedJson_eq_iff print row.fitsPayload row'.fitsPayload).mp (congrArg QueueRow.payload h)

/-- What is hashed first tells the ids apart. -/
theorem id_of_digestInput {row row' : TrunkRow print} {kind kind' : WriterKind} (hpos : 0 < row.id)
    (hpos' : 0 < row'.id) (h : digestInput row kind = digestInput row' kind') : row.id = row'.id := by
  simp only [digestInput, requestHasher, append_assoc, append_cancel_left_eq] at h
  obtain ⟨hid, -⟩ := frontOn_hashField _ _ _ _ (fitsText_operationIdOf hpos row.idRange)
    (fitsText_operationIdOf hpos' row'.idRange) h
  exact operationIdOf_injective hid

theorem TrunkRow.request_eq_ok {validScope : Text → Bool} {sha256 : List UInt8 → Text} {row : TrunkRow print}
    {request : PublicationRequest} (h : row.request validScope sha256 = .ok request) :
    0 < row.id ∧ row.queueRow.writerKind = .ok request.writerKind ∧
      request.requestDigest = "sha256:".toList ++ sha256 (digestInput row request.writerKind) := by
  have hpos : 0 < row.id := by
    have hguard := h
    unfold TrunkRow.request fromTrunkQueue at hguard
    rw [Fallible.guard_eq_ok] at hguard
    exact not_le.mp fun hle => hguard.1 (.inl hle)
  obtain ⟨kind, hkind, rfl⟩ := fromTrunkQueue_eq_ok h
  refine ⟨hpos, hkind, ?_⟩
  rw [digestInput_eq]
  rfl

/-- **The digest of a request tells rows apart exactly by what makes up the request**: for rows that are accepted, what
is hashed is the same exactly if the rows agree. -/
theorem digestInput_eq_iff {validScope : Text → Bool} {sha256 : List UInt8 → Text} {row row' : TrunkRow print}
    {request request' : PublicationRequest} (h : row.request validScope sha256 = .ok request)
    (h' : row'.request validScope sha256 = .ok request') :
    request.requestDigest = "sha256:".toList ++ sha256 (digestInput row request.writerKind) ∧
      (digestInput row request.writerKind = digestInput row' request'.writerKind ↔ row.Agree row') := by
  obtain ⟨hpos, hkind, hdigest⟩ := TrunkRow.request_eq_ok h
  obtain ⟨hpos', hkind', -⟩ := TrunkRow.request_eq_ok h'
  refine ⟨hdigest, fun hsame => ?_, fun hagree => ?_⟩
  · have hid := id_of_digestInput hpos hpos' hsame
    rw [digestInput_eq, digestInput_eq] at hsame
    exact TrunkRow.agree_of_queueRow (requestBytes_injective hid hkind hkind' hsame)
  · have hrow := hagree.queueRow
    have hwriter : request.writerKind = request'.writerKind := by
      rw [hrow, hkind'] at hkind
      exact (Except.ok.inj hkind).symm
    rw [digestInput_eq, digestInput_eq, hrow, hwriter]

/-- A push with two members in its payload. -/
def sampleRow (members : List (Text × Json.Value Text)) (hmembers : Fits id (.object members)) :
    TrunkRow (id : Text → Text) where
  id := 1
  kind := .push
  operationId := ['o']
  path := ['/']
  oldId := ['a']
  newId := ['b']
  requester := none
  payload := .object members
  idRange := by decide
  fitsOperation := by decide +kernel
  fitsPath := by decide +kernel
  fitsOld := by decide +kernel
  fitsNew := by decide +kernel
  fitsRequester := by simp
  fitsPayload := hmembers

theorem sampleRow_request (sha256 : List UInt8 → Text) (members : List (Text × Json.Value Text))
    (hmembers : Fits id (.object members)) : (sampleRow members hmembers).request (fun _ => true) sha256 = .ok {
      operationId := operationIdOf 1
      namespace_ := ['/']
      writerKind := .trunkPush
      requestDigest := "sha256:".toList ++ sha256 (digestInput (sampleRow members hmembers) .trunkPush)
      legacyOperationId := some ['o']
      isNoop := false } := by
  rw [digestInput_eq]
  rfl

def nullTrue : List (Text × Json.Value Text) := [(['n'], .null), (['t'], .bool true)]

def trueNull : List (Text × Json.Value Text) := [(['t'], .bool true), (['n'], .null)]

theorem fits_nullTrue : Fits id (.object nullTrue) :=
  ⟨by decide, by decide, ⟨by decide +kernel, trivial⟩, ⟨by decide +kernel, trivial⟩, trivial⟩

theorem fits_trueNull : Fits id (.object trueNull) :=
  ⟨by decide, by decide, ⟨by decide +kernel, trivial⟩, ⟨by decide +kernel, trivial⟩, trivial⟩

theorem sampleRow_agree : (sampleRow nullTrue fits_nullTrue).Agree (sampleRow trueNull fits_trueNull) := by
  refine ⟨rfl, rfl, rfl, rfl, rfl, rfl, rfl, congrArg Json.Meaning.object (funext fun key => ?_)⟩
  show (if key = ['n'] then _ else if key = ['t'] then _ else _) = if key = ['t'] then _ else if key = ['n'] then _ else _
  split_ifs with hn ht
  · exact absurd (hn.symm.trans ht) (by decide)
  all_goals rfl

/-- Members in another order do not change what is hashed. -/
theorem digestInput_eq_iff_reordered : digestInput (sampleRow nullTrue fits_nullTrue) .trunkPush =
    digestInput (sampleRow trueNull fits_trueNull) .trunkPush :=
  -- any digest will do, such as the bytes themselves
  let sha256 : List UInt8 → Text := List.map fun byte => Char.ofNat byte.toNat
  (digestInput_eq_iff (sampleRow_request sha256 nullTrue fits_nullTrue)
    (sampleRow_request sha256 trueNull fits_trueNull)).2.mpr sampleRow_agree

end Rows

end Receipts
end Mega
