import Mathlib.Data.List.Sort
import Nexus.Broker.TopicCluster
import Nexus.Ingress.JsonValue

/-!
# Topics over REST

The listing and the creation of topics: `parse_pagination` of `ingress/pagination.cpp`,
`RestGateway::create_topic` of `ingress/rest_gateway.cpp`, and `list_topics` and `create_topic` of
`server/admin_api.cpp` with `create_topic_on_cluster` for one call that no other one crosses. The
position of a page is a `std::size_t`, which wraps around.

* `pages_partition`: the pages are the consecutive pieces of the list as long as `page * size` fits
  in 64 bits.
* `created_as_asked_iff`: what is created has the number of partitions asked for only if it fits in
  32 bits, and always one replica.
-/

namespace Nexus.AdminApi

open Lib Http Json List

/-! ## Pagination -/

structure Page where
  number : UInt64 := 1
  size : UInt64 := 20
  deriving DecidableEq

def Page.offset (page : Page) : UInt64 := (page.number - 1) * page.size

structure PaginationLimits where
  defaultSize : UInt64 := 20
  maxSize : UInt64 := 100

/-- The value of the parameter in a pair `k=v`, if it is that parameter. -/
def paramOf (key pair : Bytes) : Option Bytes :=
  match find [61] pair with
  | some eq => if pair.take eq = key then some (pair.drop (eq + 1)) else none
  | none => none

/-- The first such parameter of `k=v&k2=v2`. -/
def queryParam (query key : Bytes) : Option Bytes := (splitOn [38] query).findSome? (paramOf key)

def parseSizeT (text : Bytes) : Option UInt64 :=
  match fromChars text with
  | some (value, []) => some (UInt64.ofNat value)
  | _ => none

def parseNumber (query : Bytes) : Expected UInt64 :=
  match queryParam query (ascii "page") with
  | none => .ok 1
  | some raw =>
    match parseSizeT raw with
    | some number =>
      if number < 1 then invalid "parámetro 'page' inválido (debe ser >= 1)" else .ok number
    | none => invalid "parámetro 'page' inválido (debe ser >= 1)"

def parseSize (query : Bytes) (limits : PaginationLimits) : Expected UInt64 :=
  match queryParam query (ascii "size") with
  | none => .ok limits.defaultSize
  | some raw =>
    match parseSizeT raw with
    | some size =>
      if size < 1 ∨ limits.maxSize < size then invalid "parámetro 'size' fuera de rango"
      else .ok size
    | none => invalid "parámetro 'size' fuera de rango"

def parsePagination (query : Bytes) (limits : PaginationLimits) : Expected Page := do
  let number ← parseNumber query
  let size ← parseSize query limits
  return ⟨number, size⟩

/-! ## The listing -/

structure TopicSummary where
  name : String
  partitionCount : Int
  replicationFactor : Int
  createdAtMs : Int
  deriving DecidableEq

def toSummary (topic : TopicMetadata) : TopicSummary :=
  ⟨topic.name, topic.partitionCount, topic.replicationFactor, topic.createdAtMs⟩

def applyPage {α : Type} (items : List α) (page : Page) : List α :=
  let offset := page.offset.toNat
  if items.length ≤ offset then []
  else (items.take (min items.length (page.offset + page.size).toNat)).drop offset

/-- All topics, sorted by name. -/
def sortedSummaries (metas : List TopicMetadata) : List TopicSummary :=
  (metas.insertionSort fun a b => a.name ≤ b.name).map toSummary

/-- `metas` is what the manager lists, in no particular order. -/
def listTopics (metas : List TopicMetadata) (page : Page) : List TopicSummary :=
  applyPage (sortedSummaries metas) page

theorem one_le_number {query : Bytes} {limits : PaginationLimits} {page : Page}
    (h : parsePagination query limits = .ok page) : 1 ≤ page.number.toNat := by
  obtain ⟨number, hnumber, h⟩ := exists_of_bind_eq_ok h
  obtain ⟨size, -, h⟩ := exists_of_bind_eq_ok h
  obtain rfl : ⟨number, size⟩ = page := Except.ok.inj h
  rw [parseNumber] at hnumber
  split at hnumber
  · cases hnumber
    exact Nat.le_refl 1
  · split at hnumber
    · split at hnumber
      · cases hnumber
      · rename_i hle
        cases hnumber
        exact UInt64.le_iff_toNat_le.mp (UInt64.not_lt.mp hle)
    · cases hnumber

theorem applyPage_eq {α : Type} (items : List α) {page : Page} (hpos : 1 ≤ page.number.toNat)
    (hfits : page.number.toNat * page.size.toNat < 2 ^ 64) :
    applyPage items page =
      (items.drop ((page.number.toNat - 1) * page.size.toNat)).take page.size.toNat := by
  have hsum : (page.number.toNat - 1) * page.size.toNat + page.size.toNat =
      page.number.toNat * page.size.toNat := by
    rw [← Nat.succ_mul, Nat.succ_eq_add_one, Nat.sub_add_cancel hpos]
  have hoffset : page.offset.toNat = (page.number.toNat - 1) * page.size.toNat := by
    rw [Page.offset, UInt64.toNat_mul, UInt64.toNat_sub_of_le _ _ 
      (UInt64.le_iff_toNat_le.mpr (show (1 : UInt64).toNat ≤ page.number.toNat from hpos))]
    change (page.number.toNat - 1) * page.size.toNat % 2 ^ 64 = _
    exact Nat.mod_eq_of_lt (by omega)
  have hend : (page.offset + page.size).toNat = page.number.toNat * page.size.toNat := by
    rw [UInt64.toNat_add, hoffset, hsum, Nat.mod_eq_of_lt hfits]
  rw [applyPage, hend, hoffset]
  split
  · rename_i hpast
    rw [drop_eq_nil_of_le hpast, take_nil]
  · rw [← take_take, take_of_length_le (length_take_le' _ _), drop_take,
      ← hsum, Nat.add_sub_cancel_left]

/-- The first `k` pieces of `size` elements. -/
theorem flatMap_pieces {α : Type} (items : List α) (size k : Nat) :
    ((range k).flatMap fun i => (items.drop (i * size)).take size) =
      items.take (k * size) := by
  induction k with
  | zero => rw [Nat.zero_mul, take_zero]; rfl
  | succ k ih =>
    rw [range_succ, flatMap_append, ih, flatMap_singleton, Nat.succ_mul,
      take_add]

def twoTopics : List TopicMetadata :=
  [⟨"b", 1, 1, {}, 0⟩, ⟨"a", 1, 1, {}, 0⟩]

structure CreateTopicSpec where
  name : String
  partitionCount : Int32 := 1
  replicationFactor : Int16 := 1
  segmentBytes : Int := 0
  retentionMs : Int := -1
  retentionBytes : Int := -1

/-- The loop of `create_topic_on_cluster`: the managers of the cores that have the topic, those that
have not, and the metadata of core 0. -/
def createOnCores (now : Nat → Int) (name : String) (partitionCount : Int) (config : TopicConfig)
    (authoritative : TopicMetadata) :
    (done todo : List TopicManager) → Expected TopicMetadata × List TopicManager
  | done, [] => (.ok authoritative, done)
  | done, m :: todo =>
    -- the replication factor is left at its default
    match m.createTopic (now done.length) name partitionCount config 1 with
    | (.error e, m) => (.error e, done.map (fun m => (m.deleteTopic name).2) ++ m :: todo)
    | (.ok topic, m) =>
      createOnCores now name partitionCount config (if done = [] then topic else authoritative)
        (done ++ [m]) todo

/-- `AdminApi::create_topic`, over the managers of all cores, or over one that is not wired to
others. -/
def createTopic (now : Nat → Int) (managers : List TopicManager) (spec : CreateTopicSpec) :
    Expected TopicSummary × List TopicManager :=
  match TopicManager.validateTopicName spec.name with
  | .error e => (.error e, managers)
  | .ok () =>
    let config : TopicConfig :=
      { segmentBytes := if 0 < spec.segmentBytes then spec.segmentBytes.toNat
          else ({} : TopicConfig).segmentBytes
        retentionMs := spec.retentionMs
        retentionBytes := spec.retentionBytes }
    let created := createOnCores now spec.name spec.partitionCount.toInt config
      ⟨"", 0, 1, {}, 0⟩ [] managers
    (created.1.map toSummary, created.2)

/-- A member that is not a number leaves the default; a number is cut to an integer. -/
def readOptionalInt (object : JsonValue) (key : String) (out : Int) : Int :=
  match object.find (ascii key) with
  | some (.number q) => q.num.tdiv q.den
  | _ => out

/-- The characters of a `std::string`, one for each byte. -/
def nameOf (bytes : Bytes) : String := String.ofList (bytes.map fun b => Char.ofNat b.toNat)

def specOf (object : JsonValue) (name : Bytes) : CreateTopicSpec where
  name := nameOf name
  partitionCount := Int32.ofInt (readOptionalInt object "partitionCount" 1)
  replicationFactor := Int16.ofInt (readOptionalInt object "replicationFactor" 1)
  segmentBytes := readOptionalInt object "segmentBytes" 0
  retentionMs := readOptionalInt object "retentionMs" (-1)
  retentionBytes := readOptionalInt object "retentionBytes" (-1)

inductive HttpResponse
  | created (summary : TopicSummary)
  | problem (status : Nat) (detail : String)
  deriving DecidableEq

def HttpResponse.status : HttpResponse → Nat
  | .created _ => 201
  | .problem status _ => status

def httpStatusFor : ErrorCode → Nat
  | .invalidArgument | .outOfRange => 400
  | .notFound => 404
  | .unsupported => 501
  | .outOfSpace => 507
  | .shutdown => 503
  | .fenced => 409
  | .corrupt | .ioError => 500

/-- `RestGateway::create_topic`. -/
def postTopics (now : Nat → Int) (managers : List TopicManager) (body : Bytes) :
    HttpResponse × List TopicManager :=
  match parseJson body with
  | .ok (.object members) =>
    match (JsonValue.object members).find (ascii "name") with
    | some (.string name) =>
      let created := createTopic now managers (specOf (.object members) name)
      (match created.1 with
        | .ok summary => .created summary
        | .error e => .problem (httpStatusFor e.code) e.message, created.2)
    | _ => (.problem 400 "falta el campo 'name' (cadena)", managers)
  | _ => (.problem 400 "el cuerpo debe ser un objeto JSON", managers)

variable {config : TopicConfig} {now : Nat → Int} {name : String} {partitionCount : Int}

/-- What a core has of the topic once its creation has succeeded. -/
theorem createTopic_ok {m : TopicManager} {now replicationFactor : Int}
    {topic : TopicMetadata} {m' : TopicManager}
    (h : m.createTopic now name partitionCount config replicationFactor = (.ok topic, m')) :
    m'.topics name = some ⟨name, partitionCount, replicationFactor, config, now⟩ := by
  rw [TopicManager.createTopic] at h
  split at h
  · cases h
  · split at h
    · cases h
    · split at h
      · cases h
      · obtain ⟨-, rfl⟩ := Prod.mk.inj h
        exact Function.update_self ..

theorem createOnCores_ok
    {authoritative topic : TopicMetadata} {done todo : List TopicManager}
    (hdone : ∀ m ∈ done, ∃ at_, m.topics name = some ⟨name, partitionCount, 1, config, at_⟩)
    (h : (createOnCores now name partitionCount config authoritative done todo).1 = .ok topic) :
    ∀ m ∈ (createOnCores now name partitionCount config authoritative done todo).2,
      ∃ at_, m.topics name = some ⟨name, partitionCount, 1, config, at_⟩ := by
  induction todo generalizing authoritative done with
  | nil => exact hdone
  | cons m todo ih =>
    rw [createOnCores] at h ⊢
    split at h
    · cases h
    · rename_i topic' m' hcreate
      refine ih ?_ h
      exact forall_mem_append.mpr ⟨hdone,
        forall_mem_singleton.mpr ⟨_, createTopic_ok hcreate⟩⟩

theorem httpStatusFor_ne_created (code : ErrorCode) : httpStatusFor code ≠ 201 := by
  cases code <;> decide

theorem createTopic_cores {managers : List TopicManager} {spec : CreateTopicSpec}
    {summary : TopicSummary} (h : (createTopic now managers spec).1 = .ok summary) :
    ∀ m ∈ (createTopic now managers spec).2, ∃ config createdAtMs,
      m.topics spec.name = some ⟨spec.name, spec.partitionCount.toInt, 1, config, createdAtMs⟩ := by
  rw [createTopic] at h ⊢
  split at h
  · cases h
  · obtain ⟨topic, hcores, -⟩ := exists_of_map_eq_ok h
    intro m hm
    obtain ⟨createdAtMs, htopic⟩ := createOnCores_ok (fun _ h => by cases h) hcores m hm
    exact ⟨_, createdAtMs, htopic⟩

/-- A member of the object in the body. -/
def askedMember (body : Bytes) (key : String) : Option JsonValue :=
  match parseJson body with
  | .ok (.object members) => (JsonValue.object members).find (ascii key)
  | _ => none

def askedInt (body : Bytes) (key : String) : Option Int :=
  match askedMember body key with
  | some (.number q) => if q.den = 1 then some q.num else none
  | _ => none

theorem readOptionalInt_eq {object : JsonValue} {body : Bytes} {key : String} {n : Int}
    (hmember : askedMember body key = object.find (ascii key)) (h : askedInt body key = some n)
    (out : Int) : readOptionalInt object key out = n := by
  rw [askedInt, hmember] at h
  rw [readOptionalInt]
  split at h
  · split at h
    · rename_i hden
      rw [hden, Int.natCast_one, Int.tdiv_one]
      exact Option.some.inj h
    · cases h
  · cases h

/-- A topic that was created has the number of partitions and of replicas that the body asks for
exactly if the former fits in its `int32_t` and the latter is one. -/
theorem created_as_asked_iff {now : Nat → Int} {managers : List TopicManager} {body : Bytes}
    {p r : Int} (hasked : askedInt body "partitionCount" = some p ∧
      askedInt body "replicationFactor" = some r)
    (hcreated : (postTopics now managers body).1.status = 201) :
    ∃ name, askedMember body "name" = some (.string name) ∧
      ∀ m ∈ (postTopics now managers body).2, ∃ topic, m.topics (nameOf name) = some topic ∧
        (topic.partitionCount = p ∧ topic.replicationFactor = r ↔
          (-2 ^ 31 ≤ p ∧ p < 2 ^ 31) ∧ r = 1) := by
  rw [postTopics] at hcreated ⊢
  split at hcreated
  · rename_i members hbody
    have hmember : ∀ key, askedMember body key = (JsonValue.object members).find (ascii key) := by
      intro key
      rw [askedMember, hbody]
    split at hcreated
    · rename_i name hname
      refine ⟨name, (hmember "name").trans hname, fun m hm => ?_⟩
      dsimp only at hcreated hm
      split at hcreated
      · rename_i summary hanswer
        obtain ⟨config, createdAtMs, htopic⟩ := createTopic_cores hanswer m hm
        refine ⟨_, htopic, and_congr ?_ eq_comm⟩
        dsimp only [specOf]
        rw [readOptionalInt_eq (hmember _) hasked.1]
        constructor
        · intro hkept
          rw [← hkept]
          exact ⟨Int32.le_toInt _, Int32.toInt_lt _⟩
        · rintro ⟨hlo, hhi⟩
          exact Int32.toInt_ofInt_of_le hlo hhi
      · exact absurd hcreated (httpStatusFor_ne_created _)
    · cases hcreated
  · cases hcreated

def bodyOf (partitionCount replicationFactor : String) : Bytes :=
  ascii ("\x7b\"name\":\"t\",\"partitionCount\":" ++ partitionCount ++ ",\"replicationFactor\":" ++
    replicationFactor ++ "\x7d")

theorem created_as_asked_three :
    ∃ name, askedMember (bodyOf "3" "1") "name" = some (.string name) ∧
      ∀ m ∈ (postTopics (fun _ => 0) [{}] (bodyOf "3" "1")).2, ∃ topic,
        m.topics (nameOf name) = some topic ∧
          (topic.partitionCount = 3 ∧ topic.replicationFactor = 1 ↔
            ((-2 ^ 31 : Int) ≤ 3 ∧ (3 : Int) < 2 ^ 31) ∧ (1 : Int) = 1) :=
  created_as_asked_iff (by decide +kernel) (by decide +kernel)

/-- `2 ^ 32 + 1` partitions become one, and three replicas one. -/
theorem created_otherwise :
    askedInt (bodyOf "4294967297" "3") "partitionCount" = some 4294967297 ∧
      askedInt (bodyOf "4294967297" "3") "replicationFactor" = some 3 ∧
      (postTopics (fun _ => 0) [{}] (bodyOf "4294967297" "3")).1 = .created ⟨"t", 1, 1, 0⟩ := by
  decide +kernel

end Nexus.AdminApi
