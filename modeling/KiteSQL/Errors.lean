import KiteSQL.Lib.ByteReader
import KiteSQL.Expression.Operator
import KiteSQL.Types.Value

/-! What a run of the engine can end in besides a result. -/
namespace KiteSQL

inductive DatabaseError where
  | castFail (source target : LogicalType)
  | columnsEmpty
  | columnNotFound (column : String)
  | parametersNotFound (name : String)
  | duplicateColumn (column : String)
  | duplicateIndex (index : String)
  | duplicatePrimaryKey
  | duplicateSourceHash (name : String)
  | duplicateUniqueValue
  | evaluatorNotFound
  | fromUtf8Error
  | incomparable (left right : LogicalType)
  | invalidColumn (column : String)
  | invalidIndex
  | invalidType
  | invalidValue (value : String)
  | io (message : String)
  | misMatch (left right : String)
  | needNullAbleOrDefault
  | notNull (column : Option String)
  | overFlow
  | parseBool
  | parseInt
  | primaryKeyNotFound
  | primaryKeyTooManyLayers
  | tableExists
  | tableNotFound
  | tooLong
  | tryFromInt
  | tupleIdNotFound (id : DataValue)
  | unsupportedBinaryOperator (ty : LogicalType) (op : BinaryOperator)
  | unsupportedStmt (message : String)
  | unsupportedUnaryOperator (ty : LogicalType) (op : UnaryOperator)
  | viewExists
  | viewNotFound

/-- A call returns an error, panics, reaches code its author declared unreachable, or goes on
forever. -/
inductive Fault where
  | error (e : DatabaseError)
  | panic (message : String)
  | undefinedBehavior
  | divergence

abbrev Result (α : Type) := Except Fault α

abbrev Reader (α : Type) := ByteReader Fault α

namespace Result

variable {α β : Type} {x : Result α} {f : α → Result β}

@[simp] theorem ok_bind (a : α) : ((.ok a : Result α) >>= f) = f a := rfl

@[simp] theorem error_bind (e : Fault) : ((.error e : Result α) >>= f) = .error e := rfl

@[simp] theorem pure_eq (a : α) : (pure a : Result α) = .ok a := rfl

/-- A sequence succeeds through the results of its parts. -/
theorem bind_eq_ok {b : β} : (x >>= f) = .ok b ↔ ∃ a, x = .ok a ∧ f a = .ok b := by
  cases x with
  | error e => simp
  | ok a => simp

theorem bind_bind_eq_ok {γ : Type} {f : α → Result β} {g : α → β → Result γ} {c : γ} :
    (x >>= fun a => f a >>= g a) = .ok c ↔
      ∃ a b, x = .ok a ∧ f a = .ok b ∧ g a b = .ok c := by
  simp only [bind_eq_ok, exists_and_left]

end Result

/-- The error of `read_exact` on a short input. -/
def unexpectedEof : Fault := .error (.io "failed to fill whole buffer")

/-- `&bytes[start..]`. -/
def sliceFrom (bytes : List UInt8) (start : Nat) : Result (List UInt8) :=
  if start ≤ bytes.length then .ok (bytes.drop start)
  else .error (.panic "slice index starts past the end")

/-- Reads from a cursor over the whole slice and drops what is left. -/
def runReader {α : Type} (r : Reader α) (bytes : List UInt8) : Result α := (r bytes).map Prod.fst

theorem sliceFrom_append {a s : List UInt8} {n : Nat} (h : a.length = n) :
    sliceFrom (a ++ s) n = .ok s := by
  simp [sliceFrom, ← h]

theorem runReader_of_reads {α : Type} {r : Reader α} {a : List UInt8} {x : α}
    (h : ByteReader.Reads r a x) (s : List UInt8) : runReader r (a ++ s) = .ok x := by
  rw [runReader, h s]
  rfl

theorem runReader_eq_ok {α : Type} {r : Reader α} {a : List UInt8} {x : α} :
    runReader r a = .ok x ↔ ∃ s, r a = .ok (x, s) := by
  unfold runReader
  cases r a with
  | error e => simp [Except.map]
  | ok p =>
    obtain ⟨y, s⟩ := p
    simp [Except.map]

/-- `String::from_utf8`. -/
def fromUtf8 (bytes : List UInt8) : Result String :=
  match String.fromUTF8? ⟨bytes.toArray⟩ with
  | some s => .ok s
  | none => .error (.error .fromUtf8Error)

theorem fromUtf8_asBytes (s : String) : fromUtf8 (asBytes s) = .ok s := by
  have hb : (⟨(asBytes s).toArray⟩ : ByteArray) = s.toByteArray := by
    simp [asBytes]
  have hs : String.fromUTF8? s.toByteArray = some s := dif_pos s.isValidUTF8
  rw [fromUtf8, hb, hs]

theorem asBytes_of_fromUtf8 {bytes : List UInt8} {s : String} (h : fromUtf8 bytes = .ok s) :
    asBytes s = bytes := by
  unfold fromUtf8 String.fromUTF8? at h
  split at h
  · next hs =>
    split at hs
    · cases hs
      cases h
      rfl
    · cases hs
  · cases h

theorem asBytes_inj {s t : String} : asBytes s = asBytes t ↔ s = t := by
  constructor
  · intro h
    have hs := fromUtf8_asBytes s
    rw [h, fromUtf8_asBytes] at hs
    exact (Except.ok.inj hs).symm
  · rintro rfl
    rfl

end KiteSQL
