import KiteSQL.Lib.Bitmap
import KiteSQL.Lib.Traverse
import KiteSQL.Types.Serialize

/-! Stored rows: a bitmap of the NULL columns and then the raw values of the others. -/
namespace KiteSQL

open ByteReader DataValue List Bitmap Traverse

structure Tuple where
  pk : Option DataValue
  values : List DataValue

namespace Tuple

def bitsMaxIndex : Nat := 8

def bitsLen (len : Nat) : Nat := (len + bitsMaxIndex) / bitsMaxIndex

/-- The loop of `serialize_to`: a NULL flips its bit, another value appends its raw form. -/
def serializeLoop [DecimalLayout] :
    Nat → List (DataValue × TupleValueSerializableImpl) → Bytes → Result Bytes
  | _, [], bytes => .ok bytes
  | i, (value, serializer) :: rest, bytes =>
    if value.isNull then serializeLoop (i + 1) rest (Bitmap.put bytes i)
    else do
      let raw ← serializer.toRaw value
      serializeLoop (i + 1) rest (bytes ++ raw)

def serializeTo [DecimalLayout] (values : List DataValue)
    (serializers : List TupleValueSerializableImpl) : Result Bytes :=
  serializeLoop 0 (values.zip serializers) (List.replicate (bitsLen values.length) 0)

/-- The loop of `deserialize_from_into`, which looks the NULL bits up in the whole row. -/
def deserializeLoop [DecimalLayout] (bytes : Bytes) :
    Nat → List TupleValueSerializableImpl → Reader (List DataValue)
  | _, [] => return []
  | i, deserializer :: deserializers =>
    match Bitmap.get bytes i with
    | none => throw (.panic "index out of bounds")
    | some true => do
      let rest ← deserializeLoop bytes (i + 1) deserializers
      return .null :: rest
    | some false => do
      let values ← deserializer.fillingValue
      let rest ← deserializeLoop bytes (i + 1) deserializers
      return values ++ rest

def deserializeFromInto [DecimalLayout] (deserializers : List TupleValueSerializableImpl)
    (bytes : Bytes) (totalLen : Nat) : Result (List DataValue) := do
  let body ← sliceFrom bytes (bitsLen totalLen)
  runReader (deserializeLoop bytes 0 deserializers) body

def valueAt (values : List DataValue) (i : Nat) : Result DataValue :=
  match values[i]? with
  | some value => .ok value
  | none => .error (.panic "index out of bounds")

def primaryProjection (pkIndices : List Nat) (values : List DataValue) : Result DataValue :=
  if pkIndices.length > 1 then do
    return .tuple (← pkIndices.mapM (valueAt values))
  else
    match pkIndices with
    | i :: _ => valueAt values i
    | [] => .error (.panic "index out of bounds")

variable {v : DataValue} {vs ws out : List DataValue} {d s : TupleValueSerializableImpl}
  {ds ss : List TupleValueSerializableImpl} {t : LogicalType} {ts : List LogicalType}
  {bits bytes a b body : Bytes} {i j k : Nat}

/-- The bitmap after the NULL columns from position `i` on were flipped. -/
def putNulls : Nat → List DataValue → Bytes → Bytes
  | _, [], bits => bits
  | i, v :: vs, bits => putNulls (i + 1) vs (if v.isNull then Bitmap.put bits i else bits)

@[simp] theorem length_putNulls : (putNulls i vs bits).length = bits.length := by
  induction vs generalizing i bits with
  | nil => rfl
  | cons v vs ih =>
    rw [putNulls, ih]
    split <;> simp

theorem get_putNulls_of_lt (h : j < i) (hb : i + vs.length ≤ 8 * bits.length) :
    get (putNulls i vs bits) j = get bits j := by
  induction vs generalizing i bits with
  | nil => rfl
  | cons v vs ih =>
    rw [length_cons] at hb
    rw [putNulls]
    split
    · rw [ih (by omega) (by simp; omega), get_put (by omega), if_neg (by omega)]
    · rw [ih (by omega) (by omega)]

/-- After the loop every column has its own bit. -/
theorem get_putNulls (hk : vs[k]? = some v) (hb : i + vs.length ≤ 8 * bits.length)
    (hz : ∀ j, i ≤ j → j < i + vs.length → get bits j = some false) :
    get (putNulls i vs bits) (i + k) = some v.isNull := by
  induction vs generalizing i k bits with
  | nil => simp at hk
  | cons w vs ih =>
    rw [length_cons] at hb hz
    have hlen : (if w.isNull then put bits i else bits).length = bits.length := by
      split <;> simp
    rw [putNulls]
    cases k with
    | zero =>
      cases hk
      rw [get_putNulls_of_lt (by omega) (by omega)]
      change get _ i = _
      split
      · next hn => rw [get_put (by omega), if_pos rfl, hn]
      · next hn => rw [hz i (by omega) (by omega), Bool.eq_false_of_not_eq_true hn]
    | succ k =>
      rw [show i + (k + 1) = i + 1 + k by omega]
      refine ih (by simpa using hk) (by rw [hlen]; omega) fun j hj hj' => ?_
      split
      · rw [get_put (by omega), if_neg (by omega), hz j (by omega) (by omega)]
      · exact hz j (by omega) (by omega)

/-- The NULL bit of a column of a written row. -/
theorem get_row (hk : vs[k]? = some v) (body : Bytes) :
    get (putNulls 0 vs (replicate (bitsLen vs.length) 0) ++ body) k =
      some v.isNull := by
  have hlt : k < vs.length := (List.getElem?_eq_some_iff.mp hk).1
  have hg := @get_putNulls v vs (List.replicate (bitsLen vs.length) 0) 0 k hk
    (by simp only [length_replicate, bitsLen, bitsMaxIndex]; omega)
    (fun j _ hj => get_replicate (by simp only [bitsLen, bitsMaxIndex]; omega))
  rw [Nat.zero_add] at hg
  rw [get_append (by
    simp only [length_putNulls, length_replicate, bitsLen, bitsMaxIndex]
    omega), hg]

/-- The values that a row of these columns keeps. -/
def storedAll : List DataValue → List LogicalType → List DataValue
  | v :: vs, t :: ts => v.stored t :: storedAll vs ts
  | vs, _ => vs

theorem storedAll_storedAll (vs : List DataValue) (ts : List LogicalType) :
    storedAll (storedAll vs ts) ts = storedAll vs ts := by
  fun_induction storedAll vs ts with
  | case1 v vs t ts ih => rw [storedAll, stored_stored, ih]
  | case2 vs ts h =>
    cases vs with
    | nil => cases ts <;> rfl
    | cons v vs =>
      cases ts with
      | nil => rfl
      | cons t ts => exact absurd rfl (h v vs t ts rfl)

/-- The values that the columns read of values written to them. -/
def keptAll : List DataValue → List LogicalType → List DataValue
  | v :: vs, t :: ts => v.kept t :: keptAll vs ts
  | vs, _ => vs

/-- Every value is NULL or belongs to its column and passes the length check. -/
def RowOf (vs : List DataValue) (ts : List LogicalType) : Prop :=
  List.Forall₂ (fun v t => HasType v t ∧ v.checkLen t = .ok ()) vs ts

theorem RowOf.declaresChar (h : RowOf vs ts) : Forall₂ declaresChar vs ts :=
  h.imp fun _ _ hv => hv.1.declaresChar

theorem RowOf.keptAll (h : RowOf vs ts) : keptAll vs ts = storedAll vs ts := by
  induction h with
  | nil => rfl
  | cons hv _ ih => rw [Tuple.keptAll, storedAll, hv.1.kept, ih]

theorem RowOf.length_serializers (hr : RowOf vs ts)
    (hs : ts.mapM LogicalType.serializable = .ok ss) : ss.length = vs.length := by
  rw [length_of_mapM hs, hr.length_eq]

section Layout

variable [DecimalLayout]

/-- The raw forms of the columns that are not NULL. -/
def rowBody : List (DataValue × TupleValueSerializableImpl) → Result Bytes
  | [] => .ok []
  | (value, serializer) :: rest =>
    if value.isNull then rowBody rest
    else do
      let raw ← serializer.toRaw value
      return raw ++ (← rowBody rest)

/-- A finished row is its bitmap followed by its body. -/
theorem serializeLoop_eq (h : vs.length ≤ ss.length) (hb : i + vs.length ≤ 8 * bits.length) :
    serializeLoop i (vs.zip ss) (bits ++ a) =
      (rowBody (vs.zip ss)).map fun body => putNulls i vs bits ++ (a ++ body) := by
  induction vs generalizing i ss bits a with
  | nil => simp [serializeLoop, rowBody, putNulls, Except.map]
  | cons v vs ih =>
    cases ss with
    | nil => simp at h
    | cons s ss =>
      simp only [length_cons] at h hb
      rw [zip_cons_cons, serializeLoop, rowBody, putNulls]
      cases hn : v.isNull with
      | true =>
        have hput : put (bits ++ a) i = put bits i ++ a :=
          put_append (by omega) a
        simp only [if_true, hput]
        exact ih (by omega) (by simp; omega)
      | false =>
        simp only [Bool.false_eq_true, if_false]
        cases s.toRaw v with
        | error e => rfl
        | ok raw =>
          rw [Result.ok_bind, Result.ok_bind, append_assoc, ih (by omega) (by omega)]
          cases rowBody (vs.zip ss) with
          | error e => rfl
          | ok body => simp [Except.map, append_assoc]

/-- What a successful `serialize_to` wrote. -/
theorem serializeTo_eq_ok (hl : vs.length ≤ ss.length) :
    serializeTo vs ss = .ok bytes ↔ ∃ body, rowBody (vs.zip ss) = .ok body ∧
      bytes = putNulls 0 vs (replicate (bitsLen vs.length) 0) ++ body := by
  have hbits : 0 + vs.length ≤ 8 * (replicate (bitsLen vs.length) (0 : UInt8)).length := by
    simp only [length_replicate, bitsLen, bitsMaxIndex]
    omega
  have he := serializeLoop_eq (a := []) hl hbits
  rw [append_nil] at he
  rw [serializeTo, he]
  cases rowBody (vs.zip ss) with
  | error e => simp [Except.map]
  | ok body => simp [Except.map, eq_comm]

/-- A list of deserializers that reads the columns `vs` off a body and appends `out`. -/
inductive ReadsColumns :
    List TupleValueSerializableImpl → List DataValue → Bytes → List DataValue → Prop
  | nil (vs : List DataValue) : ReadsColumns [] vs [] []
  | null (d : TupleValueSerializableImpl) {ds : List TupleValueSerializableImpl}
      {vs out : List DataValue} {b : Bytes} : ReadsColumns ds vs b out →
      ReadsColumns (d :: ds) (.null :: vs) b (.null :: out)
  | value {d : TupleValueSerializableImpl} {ds : List TupleValueSerializableImpl} {v : DataValue}
      {vs o out : List DataValue} {a b : Bytes} : v.isNull = false → Reads d.fillingValue a o →
      ReadsColumns ds vs b out → ReadsColumns (d :: ds) (v :: vs) (a ++ b) (o ++ out)

theorem ReadsColumns.reads (h : ReadsColumns ds vs b out)
    (hbits : ∀ k v, vs[k]? = some v → get bytes (i + k) = some v.isNull) :
    Reads (deserializeLoop bytes i ds) b out := by
  induction h generalizing i with
  | nil => exact reads_pure []
  | null d h ih =>
    have h0 := hbits 0 .null rfl
    have hrest := ih fun k v hk => by
      have := hbits (k + 1) v (by simpa using hk)
      rwa [show i + (k + 1) = i + 1 + k by omega] at this
    rw [Nat.add_zero, isNull] at h0
    rw [deserializeLoop, h0]
    exact hrest.bind_pure _
  | @value d ds v vs a b o out hn hr h ih =>
    have h0 := hbits 0 v rfl
    have hrest := ih fun k v hk => by
      have := hbits (k + 1) v (by simpa using hk)
      rwa [show i + (k + 1) = i + 1 + k by omega] at this
    rw [Nat.add_zero, hn] at h0
    rw [deserializeLoop, h0]
    exact hr.bind (hrest.bind_pure _)

theorem rowBody_value (hn : v.isNull = false) (ha : s.toRaw v = .ok a)
    (hb : rowBody (vs.zip ss) = .ok b) : rowBody ((v, s) :: vs.zip ss) = .ok (a ++ b) := by
  rw [rowBody, hn, ha, hb]
  rfl

section Columns

variable (hs : ts.mapM LogicalType.serializable = .ok ss)
include hs

/-- The columns of a row are written. -/
theorem RowOf.rowBody_ok (hr : RowOf vs ts) : ∃ body, rowBody (vs.zip ss) = .ok body := by
  induction hr generalizing ss with
  | nil => exact ⟨[], rfl⟩
  | @cons v t vs ts hv _ ih =>
    obtain ⟨s, ss, hst, hss, rfl⟩ := mapM_cons_eq_ok.mp hs
    obtain ⟨b, hb⟩ := ih hss
    rw [zip_cons_cons, rowBody]
    split
    · exact ⟨b, hb⟩
    · next hn =>
      obtain ⟨a, ha⟩ := toRaw_ok hv.1 (by simpa using hn) hv.2 hst
      rw [ha, hb]
      exact ⟨a ++ b, rfl⟩

/-- Written columns are read back when no text is too long. -/
theorem readsColumns_of_rowBody (hc : Forall₂ declaresChar vs ts)
    (hb : rowBody (vs.zip ss) = .ok body) (hl : ∀ v ∈ vs, v.writtenLen < 2 ^ 32) :
    ReadsColumns ss vs body (keptAll vs ts) := by
  induction hc generalizing ss body with
  | nil =>
    cases hs
    cases hb
    exact .nil []
  | @cons v t vs ts hv _ ih =>
    obtain ⟨s, ss, hst, hss, rfl⟩ := mapM_cons_eq_ok.mp hs
    have hrest := fun body (hb : rowBody (vs.zip ss) = .ok body) =>
      ih hss hb fun w hw => hl w (by simp [hw])
    rw [zip_cons_cons, rowBody] at hb
    split at hb
    · next hn =>
      rw [isNull_iff] at hn
      subst hn
      exact .null s (hrest body hb)
    · next hn =>
      obtain ⟨a, b, ha, hbs, hab⟩ := Result.bind_bind_eq_ok.mp hb
      cases hab
      exact .value (by simpa using hn) (reads_fillingValue hst ha hv (hl v (by simp)))
        (hrest b hbs)

/-- A written row is read back when no text is too long. -/
theorem deserialize_serialized (hc : Forall₂ declaresChar vs ts)
    (hw : serializeTo vs ss = .ok bytes) (hl : ∀ v ∈ vs, v.writtenLen < 2 ^ 32) :
    deserializeFromInto ss bytes ts.length = .ok (keptAll vs ts) := by
  have hlen : vs.length = ss.length := by rw [hc.length_eq, length_of_mapM hs]
  obtain ⟨body, hb, rfl⟩ := (serializeTo_eq_ok hlen.le).mp hw
  rw [deserializeFromInto, ← hc.length_eq, sliceFrom_append (by simp), Result.ok_bind]
  have hread := readsColumns_of_rowBody hs hc hb hl
  have hrun := runReader_of_reads (hread.reads (i := 0) fun k v hk => by
    rw [Nat.zero_add]
    exact get_row hk body) []
  rwa [append_nil] at hrun

/-- Only values of the columns can be written. -/
theorem fits_of_rowBody (hlen : vs.length = ts.length) (hb : rowBody (vs.zip ss) = .ok body) :
    Forall₂ Fits vs ts := by
  induction vs generalizing ts ss body with
  | nil =>
    obtain rfl := length_eq_zero_iff.mp hlen.symm
    exact .nil
  | cons v vs ih =>
    obtain _ | ⟨t, ts⟩ := ts
    · cases hlen
    · obtain ⟨s, ss, hst, hss, rfl⟩ := mapM_cons_eq_ok.mp hs
      have hlen' : vs.length = ts.length := by simpa using hlen
      rw [zip_cons_cons, rowBody] at hb
      split at hb
      · next hn =>
        rw [isNull_iff] at hn
        subst hn
        exact .cons (.null t) (ih hss hlen' hb)
      · obtain ⟨a, b, ha, hbs, -⟩ := Result.bind_bind_eq_ok.mp hb
        exact .cons (fits_of_toRaw hst ha) (ih hss hlen' hbs)

theorem fits_of_serializeTo (hlen : vs.length = ts.length) (hw : serializeTo vs ss = .ok bytes) :
    Forall₂ Fits vs ts := by
  have hle : vs.length ≤ ss.length := by rw [hlen, length_of_mapM hs]
  obtain ⟨body, hb, -⟩ := (serializeTo_eq_ok hle).mp hw
  exact fits_of_rowBody hs hlen hb

/-- What is read from a row belongs to its columns. -/
theorem hasType_of_deserializeLoop {r : Bytes} (h : deserializeLoop bytes i ss a = .ok (ws, r)) :
    Forall₂ HasType ws ts := by
  induction ts generalizing ss i a ws r with
  | nil =>
    cases hs
    obtain ⟨rfl, -⟩ := pure_eq_ok.mp h
    exact .nil
  | cons t ts ih =>
    obtain ⟨s, ss, hst, hss, rfl⟩ := mapM_cons_eq_ok.mp hs
    rw [deserializeLoop] at h
    rcases hbit : get bytes i with _ | _ | _ <;> rw [hbit] at h
    · cases h
    · obtain ⟨o, r', hf, h⟩ := bind_eq_ok.mp h
      obtain ⟨rest, r'', hrest, hp⟩ := bind_eq_ok.mp h
      obtain ⟨rfl, -⟩ := pure_eq_ok.mp hp
      rw [fillingValue_serializable hst] at hf
      obtain ⟨w, r3, hw, hq⟩ := bind_eq_ok.mp hf
      obtain ⟨rfl, -⟩ := pure_eq_ok.mp hq
      exact .cons (hasType_of_fromRaw hst hw) (ih hss hrest)
    · obtain ⟨rest, r', hrest, hp⟩ := bind_eq_ok.mp h
      obtain ⟨rfl, -⟩ := pure_eq_ok.mp hp
      exact .cons ⟨.null t, by cases t <;> rfl⟩ (ih hss hrest)

theorem hasType_of_deserialize (h : deserializeFromInto ss bytes ts.length = .ok ws) :
    Forall₂ HasType ws ts := by
  obtain ⟨body, -, h⟩ := Result.bind_eq_ok.mp h
  obtain ⟨r, h⟩ := runReader_eq_ok.mp h
  exact hasType_of_deserializeLoop hs h

/-- A row with a text that is too long is not read back. -/
theorem RowOf.deserializeLoop_cut {rest r : Bytes} (hr : RowOf vs ts)
    (hb : rowBody (vs.zip ss) = .ok body)
    (hbits : ∀ k v, vs[k]? = some v → get bytes (i + k) = some v.isNull)
    (hlong : ∃ v ∈ vs, 2 ^ 32 ≤ v.writtenLen)
    (hd : deserializeLoop bytes i ss (body ++ rest) = .ok (ws, r)) :
    storedAll ws ts ≠ storedAll vs ts := by
  induction hr generalizing ss i body ws with
  | nil => simp at hlong
  | @cons v t vs ts hv _ ih =>
    obtain ⟨s, ss, hst, hss, rfl⟩ := mapM_cons_eq_ok.mp hs
    have h0 := hbits 0 v rfl
    have htail : ∀ k w, vs[k]? = some w → get bytes (i + 1 + k) = some w.isNull :=
      fun k w hk => by
        have := hbits (k + 1) w (by simpa using hk)
        rwa [show i + (k + 1) = i + 1 + k by omega] at this
    rw [zip_cons_cons] at hb
    rw [Nat.add_zero] at h0
    rw [deserializeLoop, h0] at hd
    cases hn : v.isNull with
    | true =>
      rw [hn] at hd
      rw [isNull_iff] at hn
      subst hn
      obtain ⟨ws', r', hrest, hp⟩ := bind_eq_ok.mp hd
      obtain ⟨rfl, rfl⟩ := pure_eq_ok.mp hp
      have hlong' : ∃ w ∈ vs, 2 ^ 32 ≤ w.writtenLen := by
        simpa [writtenLen] using hlong
      intro he
      exact ih hss hb htail hlong' hrest (cons.inj he).2
    | false =>
      rw [hn] at hd
      rw [rowBody, if_neg (by simp [hn])] at hb
      obtain ⟨a, b, ha, hb', hab⟩ := Result.bind_bind_eq_ok.mp hb
      cases hab
      obtain ⟨o, r', hf, hd⟩ := bind_eq_ok.mp hd
      rw [fillingValue_serializable hst] at hf
      obtain ⟨w, r'', hw, hp⟩ := bind_eq_ok.mp hf
      obtain ⟨rfl, rfl⟩ := pure_eq_ok.mp hp
      obtain ⟨ws', r', hrest, hq⟩ := bind_eq_ok.mp hd
      obtain ⟨rfl, rfl⟩ := pure_eq_ok.mp hq
      rw [append_assoc] at hw
      intro he
      obtain ⟨hew, hes⟩ := cons.inj he
      by_cases hl : v.writtenLen < 2 ^ 32
      · rw [reads_fromRaw hv.1 hst ha hl (b ++ rest)] at hw
        cases hw
        refine ih hss hb' htail ?_ hrest hes
        obtain ⟨u, hu, hul⟩ := hlong
        rcases mem_cons.mp hu with rfl | hu
        · omega
        · exact ⟨u, hu, hul⟩
      · exact toRaw_cut hv.1 hv.2 hst ha (by omega) hw hew

end Columns

/-- The length of a text of four gibibytes is written as zero. -/
theorem deserialize_cut {value : String} (h : (asBytes value).length = 2 ^ 32) :
    ∃ bytes, serializeTo [.utf8 value (.variable none) .octets] [.varchar none .octets] =
        .ok bytes ∧
      deserializeFromInto [.varchar none .octets] bytes 1 =
        .ok [.utf8 "" (.variable none) .octets] := by
  have hb : rowBody ([utf8 value (.variable none) .octets].zip
      [.varchar none .octets]) =
      .ok (writeU32Len (asBytes value).length ++ asBytes value ++ []) :=
    @rowBody_value _ [] _ [] _ _ _ rfl rfl rfl
  have hbits := fun body k v hk =>
    @get_row v [.utf8 value (.variable none) .octets] k hk body
  refine ⟨_, (serializeTo_eq_ok (by simp)).mpr ⟨_, hb, rfl⟩, ?_⟩
  rw [deserializeFromInto, sliceFrom_append (by simp), Result.ok_bind, append_assoc]
  refine runReader_of_reads (ReadsColumns.reads (i := 0) ?_ fun k v hk => by
    rw [Nat.zero_add]
    exact hbits _ k v hk) _
  have hlen := reads_writeU32Len_mod (asBytes value).length
  rw [h] at hlen ⊢
  rw [← append_nil (writeU32Len (2 ^ 32))]
  refine .value (o := [.utf8 "" (.variable none) .octets]) rfl ?_ (.nil [])
  refine Reads.bind_nil (hlen.bind_nil (reads_readText rfl rfl)) (reads_pure _)

end Layout

/-- A row that was written comes back, up to trailing spaces of CHAR columns, exactly when the
length of each of its texts fits 32 bits. -/
theorem deserialize_serialize_iff [DecimalLayout] (hr : RowOf vs ts)
    (hs : ts.mapM LogicalType.serializable = .ok ss) :
    ∃ bytes, serializeTo vs ss = .ok bytes ∧
      ((∃ ws, deserializeFromInto ss bytes ts.length = .ok ws ∧
        storedAll ws ts = storedAll vs ts) ↔ ∀ v ∈ vs, v.writtenLen < 2 ^ 32) := by
  obtain ⟨body, hb⟩ := hr.rowBody_ok hs
  have hlen := hr.length_serializers hs
  have hw := (serializeTo_eq_ok (by omega)).mpr ⟨body, hb, rfl⟩
  refine ⟨_, hw, fun ⟨ws, hd, he⟩ => ?_, fun h => ?_⟩
  · by_contra hlong
    push Not at hlong
    rw [deserializeFromInto, ← hr.length_eq, sliceFrom_append (by simp), Result.ok_bind] at hd
    obtain ⟨r, hd⟩ := runReader_eq_ok.mp hd
    rw [← append_nil body] at hd
    refine hr.deserializeLoop_cut hs hb (fun k v hk => ?_) hlong hd he
    rw [Nat.zero_add]
    exact get_row hk _
  · refine ⟨_, deserialize_serialized hs hr.declaresChar hw h, ?_⟩
    rw [hr.keptAll, storedAll_storedAll]

theorem deserialize_serialize_null_column :
    ∃ ss bytes ws, [LogicalType.integer, .varchar none .octets].mapM LogicalType.serializable =
        .ok ss ∧ @serializeTo .flagsFirst [.int32 7, .null] ss = .ok bytes ∧
      @deserializeFromInto .flagsFirst ss bytes 2 = .ok ws ∧
      storedAll ws [.integer, .varchar none .octets] = [.int32 7, .null] := by
  let _ := DecimalLayout.flagsFirst
  obtain ⟨bytes, hb, h⟩ := @deserialize_serialize_iff [.int32 7, .null] _
    [.integer, .varchar none .octets] _
    (.cons ⟨⟨.int32 7, rfl⟩, rfl⟩ (.cons ⟨⟨.null _, rfl⟩, rfl⟩ .nil)) rfl
  obtain ⟨ws, hd, he⟩ := h.mpr (by simp [writtenLen])
  exact ⟨_, bytes, ws, rfl, hb, hd, he⟩

theorem deserialize_serialize_long_text :
    ∃ (value : String) (bytes : Bytes),
      (DataValue.utf8 value (.variable none) .octets).checkLen (.varchar none .octets) = .ok () ∧
      @serializeTo .flagsFirst [.utf8 value (.variable none) .octets] [.varchar none .octets] =
        .ok bytes ∧
      @deserializeFromInto .flagsFirst [.varchar none .octets] bytes 1 =
        .ok [.utf8 "" (.variable none) .octets] ∧ value ≠ "" := by
  let _ := DecimalLayout.flagsFirst
  have hlen := length_asBytes_replicate (2 ^ 32)
  generalize String.ofList (replicate (2 ^ 32) 'a') = value at hlen
  obtain ⟨bytes, hb, hd⟩ := deserialize_cut hlen
  refine ⟨value, bytes, rfl, hb, hd, ?_⟩
  rintro rfl
  simp [asBytes] at hlen

end Tuple

end KiteSQL
