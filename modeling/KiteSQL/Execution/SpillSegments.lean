import KiteSQL.Execution.Spill

/-! What is written to a spill file is read back in the order in which it was written, again after
a reset, and segment by segment. -/
namespace KiteSQL

open Endian ByteReader Iterate SegmentReader List SpillCodec Result EstimatedSize

variable {α : Type} [SpillCodec α] {x : α} {rows values tail : List α}
  {segments more : List (List α)} {a b c rest : Bytes}

theorem encodeEach_ok (h : ∀ x ∈ values, ∃ a, encode x = .ok a) :
    ∃ b, encodeEach values = .ok b := by
  induction values with
  | nil => exact ⟨[], rfl⟩
  | cons x values ih =>
    obtain ⟨a, ha⟩ := h x (by simp)
    obtain ⟨b, hb⟩ := ih fun y hy => h y (by simp [hy])
    exact ⟨a ++ b, by simp [encodeEach, ha, hb]⟩

theorem segmentBytes_error {e : Fault} (h : encode x = .error e) :
    segmentBytes (x :: rows) = .error e := by
  rw [segmentBytes, encodeEach, h]
  rfl

/-- Segments one behind the other, each with at least one row. -/
inductive Segments : List (List α) → Bytes → Prop
  | nil : Segments [] []
  | cons {rows : List α} {segments : List (List α)} {a b : Bytes} : rows ≠ [] →
      rows.length < 2 ^ 64 → segmentBytes rows = .ok a → Segments segments b →
      Segments (rows :: segments) (a ++ b)

namespace Segments

theorem append (h : Segments segments a) (h' : Segments more b) :
    Segments (segments ++ more) (a ++ b) := by
  induction h with
  | nil => exact h'
  | cons hne hlen hrows _ ih =>
    rw [cons_append, append_assoc]
    exact .cons hne hlen hrows ih

theorem singleton (hne : rows ≠ []) (hlen : rows.length < 2 ^ 64)
    (h : segmentBytes rows = .ok a) : Segments [rows] a := by
  have hs := Segments.cons hne hlen h .nil
  rwa [append_nil] at hs

theorem length_flatten_le [LawfulSpillCodec α] (h : Segments segments b) :
    segments.flatten.length ≤ b.length := by
  induction h with
  | nil => exact Nat.zero_le _
  | cons _ _ hrows _ ih =>
    obtain ⟨c, hc, hrows⟩ := bind_eq_ok.mp hrows
    cases hrows
    have hlen := length_le_of_encodeEach hc
    simp only [flatten_cons, length_append]
    omega

end Segments

namespace SegmentReader

variable {reader : SegmentReader}

/-- The reader is in front of some rows of its segment, with the rest of the file behind them. -/
structure Before (reader : SegmentReader) (rows : List α) (rest : Bytes) : Prop where
  bytes : ∃ a, encodeEach rows = .ok a ∧ reader.reader = a ++ rest
  count : reader.remainingRows = rows.length

theorem before_nil (h : Before (α := α) reader [] rest) : reader = ⟨rest, 0⟩ := by
  obtain ⟨⟨a, ha, hr⟩, hc⟩ := h
  obtain ⟨bytes, count⟩ := reader
  cases ha
  cases hr
  cases hc
  rfl

theorem before_zero (rest : Bytes) : Before (α := α) ⟨rest, 0⟩ [] rest :=
  ⟨⟨[], rfl, rfl⟩, rfl⟩

theorem next_nil (h : Before (α := α) reader [] rest) :
    reader.next (α := α) = .ok (none, ⟨rest, 0⟩) := by
  rw [before_nil h]
  rfl

theorem next_cons [LawfulSpillCodec α] (h : Before reader (x :: rows) rest) :
    ∃ reader', reader.next = .ok (some x, reader') ∧ Before reader' rows rest := by
  obtain ⟨⟨c, hc, hr⟩, hcount⟩ := h
  obtain ⟨a, b, ha, hb, hc⟩ := bind_bind_eq_ok.mp hc
  cases hc
  have hread := LawfulSpillCodec.reads ha (b ++ rest)
  rw [← append_assoc, ← hr] at hread
  refine ⟨⟨b ++ rest, rows.length⟩, ?_, ⟨b, hb, rfl⟩, rfl⟩
  rw [next, if_neg (by rw [hcount]; simp), hread, hcount]
  rfl

theorem startNextSegment_cons (h : Segments (rows :: segments) b) (rest : Bytes) :
    ∃ reader c, startNextSegment ⟨b ++ rest, 0⟩ = .ok (true, reader) ∧
      Before reader rows (c ++ rest) ∧ Segments segments c := by
  cases h with
  | @cons _ _ a c hne hlen hrows hsegments =>
    obtain ⟨e, he, hrows⟩ := bind_eq_ok.mp hrows
    cases hrows
    refine ⟨⟨e ++ (c ++ rest), rows.length⟩, c, ?_, ⟨⟨e, he, rfl⟩, rfl⟩, hsegments⟩
    have hread := reads_readLeWord (n := 8) (lt_of_lt_of_eq hlen (by norm_num))
      (e ++ (c ++ rest))
    have hempty : (toLeBytes 8 rows.length ++ e ++ c ++ rest).isEmpty = false := by
      rw [isEmpty_eq_false_iff, ← length_pos_iff]
      simp only [length_append, length_toLeBytes]
      omega
    have hcount : rows.length ≠ 0 := by simpa using hne
    rw [startNextSegment]
    dsimp only
    rw [hempty, append_assoc, append_assoc, hread]
    simp [hcount]

theorem reset_cons (h : Segments (rows :: segments) b) (front rest : Bytes) :
    ∃ reader c, reset (front ++ (b ++ rest)) front.length = .ok reader ∧
      Before reader rows (c ++ rest) ∧ Segments segments c := by
  obtain ⟨reader, c, hstart, hbefore, hsegments⟩ := startNextSegment_cons h rest
  refine ⟨reader, c, ?_, hbefore, hsegments⟩
  rw [reset, drop_left, hstart]
  rfl

end SegmentReader

namespace SpillReader

variable {reader : SegmentReader} {file : Bytes}

/-- One call at the end of the file. -/
theorem next_tail (h : reader.Before (α := α) [] []) :
    next (.spilled reader tail file) = .ok (tail.head?, .spilled ⟨[], 0⟩ tail.tail file) := by
  rw [next, next_nil h]
  rfl

variable [LawfulSpillCodec α] {l : List α} {self : SpillReader α}

/-- One call in front of a row of the segment. -/
theorem next_row (h : reader.Before (x :: rows) rest) :
    ∃ reader', next (.spilled reader tail file) = .ok (some x, .spilled reader' tail file) ∧
      reader'.Before rows rest := by
  obtain ⟨reader', hn, hb⟩ := next_cons h
  refine ⟨reader', ?_, hb⟩
  rw [next, hn]
  rfl

/-- One call at the end of a segment. -/
theorem next_segment (h : reader.Before (α := α) [] b) (hs : Segments ((x :: rows) :: segments) b) :
    ∃ reader' c, next (.spilled reader tail file) = .ok (some x, .spilled reader' tail file) ∧
      reader'.Before rows c ∧ Segments segments c := by
  obtain ⟨reader', c, hstart, hbefore, hsegments⟩ := startNextSegment_cons hs []
  rw [append_nil] at hstart hbefore
  obtain ⟨reader'', hn, hb⟩ := next_cons hbefore
  refine ⟨reader'', c, ?_, hb, hsegments⟩
  rw [next, next_nil h, ok_bind]
  dsimp only
  rw [hstart, ok_bind]
  dsimp only
  rw [if_pos rfl, hn]
  rfl

/-- What a reader of a spilled vector still has to return: rows of its segment, the segments behind
it, and what is left of the rows in memory. -/
def Owed (file : Bytes) (tail l : List α) (self : SpillReader α) : Prop :=
  ∃ reader left rows segments b, self = .spilled reader left file ∧ left <:+ tail ∧
    reader.Before rows b ∧ Segments segments b ∧ l = rows ++ (segments.flatten ++ left)

theorem Owed.next (h : Owed file tail l self) :
    ∃ self', next self = .ok (l.head?, self') ∧ Owed file tail l.tail self' := by
  obtain ⟨reader, left, rows, segments, b, rfl, hleft, h, hs, rfl⟩ := h
  cases rows with
  | cons y rows =>
    obtain ⟨reader', hn, hb⟩ := next_row h
    exact ⟨_, hn, reader', left, rows, segments, b, rfl, hleft, hb, hs, rfl⟩
  | nil =>
    cases hs with
    | nil =>
      exact ⟨_, next_tail h, ⟨[], 0⟩, left.tail, [], [], [], rfl,
        (tail_suffix left).trans hleft, before_zero [], .nil, rfl⟩
    | @cons segment segments a c hne hlen hrows hsegments =>
      obtain _ | ⟨y, segment⟩ := segment
      · exact absurd rfl hne
      · obtain ⟨reader', c, hn, hb, hsegments⟩ :=
          next_segment h (.cons hne hlen hrows hsegments)
        refine ⟨_, hn, reader', left, segment, segments, c, rfl, hleft, hb, hsegments, ?_⟩
        simp

theorem Owed.yields (h : Owed file tail l self) : Yields SpillReader.next self l := by
  refine yields_of_owed (P := fun self l => Owed file tail l self) ?_ ?_ h
  · intro self h
    obtain ⟨self', hn, -⟩ := h.next
    exact ⟨self', hn⟩
  · intro self x l h
    exact h.next

/-- A spilled vector is read segment by segment, then from memory. -/
theorem yields_spilled (h : reader.Before rows b) (hs : Segments segments b) :
    Yields next (.spilled reader tail file) (rows ++ (segments.flatten ++ tail)) :=
  Owed.yields ⟨reader, tail, rows, segments, b, rfl, suffix_rfl, h, hs, rfl⟩

end SpillReader

namespace SpillVec

variable {v : SpillVec α} {f : List α → List α} {file : Bytes} {e : Fault}

/-- What is in the file. -/
def contents (v : SpillVec α) : Bytes := v.file.getD []

/-- The vector holds segments in its file and less than a segment in memory, which `f` arranges
before it is written. -/
structure Stores (v : SpillVec α) (f : List α → List α) (segments : List (List α)) : Prop where
  spilled : v.isSpilled = !segments.isEmpty
  written : Segments segments v.contents
  small : v.buffer.length ≤ v.limits.maxRows.toNat - 1
  encodable : ∀ x ∈ v.buffer, ∃ a, SpillCodec.encode x = .ok a
  arranges : ∀ rows, { v with buffer := rows }.runOnFlush = .ok (f rows)
  perm : ∀ rows, (f rows).Perm rows

theorem stores_new (limits : SpillLimits) : Stores (new (α := α) limits none) id [] where
  spilled := rfl
  written := .nil
  small := Nat.zero_le _
  encodable := by simp [new]
  arranges _ := rfl
  perm _ := .refl _

theorem Stores.runOnFlush_eq (h : v.Stores f segments) : v.runOnFlush = .ok (f v.buffer) :=
  h.arranges v.buffer

theorem writeBuffer_eq (hne : v.buffer ≠ []) (hfile : v.file = some file)
    (hrun : v.runOnFlush = .ok rows) (ha : segmentBytes rows = .ok a) :
    v.writeBuffer = .ok (some file.length,
      { v with buffer := [], bufferBytes := 0, file := some (file ++ a) }) := by
  rw [writeBuffer, if_neg (by simpa using hne), hrun, ok_bind, hfile]
  dsimp only
  rw [appendSegment, ha]
  rfl

theorem writeBuffer_error (hne : v.buffer ≠ []) (hfile : v.file = some file)
    (hrun : v.runOnFlush = .ok rows) (ha : segmentBytes rows = .error e) :
    v.writeBuffer = .error e := by
  rw [writeBuffer, if_neg (by simpa using hne), hrun, ok_bind, hfile]
  dsimp only
  rw [appendSegment, ha]
  rfl

/-- A row that fills the memory cannot be pushed if its segment cannot be written. -/
theorem push_error [EstimatedSize α] (hfull : v.limits.maxBytes.toNat ≤ estimatedSize x)
    (hrun : { v with buffer := v.buffer ++ [x] }.runOnFlush = .ok rows)
    (ha : segmentBytes rows = .error e) : v.push x = .error e := by
  have hmax := v.limits.maxBytes.toNat_lt
  have hbytes : v.limits.maxBytes.toNat ≤
      min usizeMax (v.bufferBytes + estimatedSize x) := by
    rw [le_min_iff, usizeMax]
    omega
  exact (if_pos (Or.inr hbytes)).trans (writeBuffer_error (by simp [startSpilling]) rfl hrun ha)

/-- The rows in memory become the next segment. -/
theorem Stores.writeBuffer (h : v.Stores f segments) {size : Nat} (hne : rows ≠ [])
    (hlen : rows.length < 2 ^ 64) (hrows : ∀ x ∈ rows, ∃ a, encode x = .ok a) :
    ∃ a v', ({ v with buffer := rows, bufferBytes := size } : SpillVec α).startSpilling.writeBuffer
        = .ok (some v.contents.length, v') ∧
      v'.Stores f (segments ++ [f rows]) ∧ v'.contents = v.contents ++ a ∧
      Segments [f rows] a ∧ v'.buffer = [] := by
  have hmem : ∀ x ∈ f rows, ∃ a, encode x = .ok a :=
    fun x hx => hrows x ((h.perm rows).mem_iff.mp hx)
  obtain ⟨e, he⟩ := encodeEach_ok hmem
  have ha : segmentBytes (f rows) = .ok (toLeBytes 8 (f rows).length ++ e) := by
    simp [segmentBytes, he]
  have hsegment : Segments [f rows] (toLeBytes 8 (f rows).length ++ e) := by
    refine .singleton (fun hnil => hne ?_) ((h.perm rows).length_eq ▸ hlen) ha
    exact nil_perm.mp (hnil ▸ h.perm rows)
  refine ⟨_, { v with
    buffer := [], bufferBytes := 0,
    file := some (v.contents ++ (toLeBytes 8 (f rows).length ++ e)) }, ?_,
    ⟨?_, h.written.append hsegment, Nat.zero_le _, by simp, h.arranges, h.perm⟩,
    rfl, hsegment, rfl⟩
  · exact writeBuffer_eq hne rfl (h.arranges rows) ha
  · simp [isSpilled]

/-- A pushed row stays in memory, or ends the segment. -/
theorem Stores.push [EstimatedSize α] (h : v.Stores f segments) (hx : ∃ a, encode x = .ok a) :
    (∃ v', v.push x = .ok (none, v') ∧ v'.Stores f segments ∧ v'.contents = v.contents ∧
      v'.buffer = v.buffer ++ [x]) ∨
    ∃ a v', v.push x = .ok (some v.contents.length, v') ∧
      v'.Stores f (segments ++ [f (v.buffer ++ [x])]) ∧ v'.contents = v.contents ++ a ∧
      Segments [f (v.buffer ++ [x])] a ∧ v'.buffer = [] := by
  have hrows : ∀ y ∈ v.buffer ++ [x], ∃ a, encode y = .ok a := by
    intro y hy
    rcases mem_append.mp hy with hy | hy
    · exact h.encodable y hy
    · obtain rfl := mem_singleton.mp hy
      exact hx
  rw [SpillVec.push]
  dsimp only
  split
  · right
    have hlen : (v.buffer ++ [x]).length < 2 ^ 64 := by
      have hs := h.small
      have hm := v.limits.maxRows.toNat_lt
      rw [length_append, length_singleton]
      omega
    exact h.writeBuffer (by simp) hlen hrows
  · next hfull =>
    left
    refine ⟨_, rfl, ⟨h.spilled, h.written, ?_, hrows, h.arranges, h.perm⟩, rfl, rfl⟩
    dsimp only at hfull ⊢
    omega

/-- What is in memory is written at the end. -/
theorem Stores.flush (h : v.Stores f segments) (hne : v.buffer ≠ []) :
    ∃ a v', v.flush = .ok (some v.contents.length, v') ∧
      v'.Stores f (segments ++ [f v.buffer]) ∧ v'.contents = v.contents ++ a ∧
      Segments [f v.buffer] a ∧ v'.buffer = [] := by
  have hlen : v.buffer.length < 2 ^ 64 := by
    have hs := h.small
    have hm := v.limits.maxRows.toNat_lt
    omega
  rw [SpillVec.flush, if_neg (by simpa using hne)]
  exact h.writeBuffer hne hlen h.encodable

theorem flush_nil (h : v.buffer = []) : v.flush = .ok (none, v) := by
  rw [flush, h]
  rfl

/-- A segment at a position of the file. -/
def Located (file : Bytes) (offset : Nat) (segment : List α) : Prop :=
  ∃ front b rest, file = front ++ (b ++ rest) ∧ front.length = offset ∧ Segments [segment] b

/-- The rows are in the segments, which start at some positions, and in memory. -/
def Holds (v : SpillVec α) (rows : List α) (offsets : List Nat) : Prop :=
  ∃ segments, v.Stores id segments ∧ segments.flatten ++ v.buffer = rows ∧
    List.Forall₂ (Located v.contents) offsets segments

theorem Located.append {offset : Nat} (h : Located a offset rows) (b : Bytes) :
    Located (a ++ b) offset rows := by
  obtain ⟨front, c, rest, rfl, hlen, hs⟩ := h
  exact ⟨front, c, rest ++ b, by simp, hlen, hs⟩

theorem located_concat {offsets : List Nat} (h : Forall₂ (Located file) offsets segments)
    (hs : Segments [rows] a) :
    Forall₂ (Located (file ++ a)) (offsets ++ [file.length]) (segments ++ [rows]) :=
  rel_append (h.imp fun _ _ h => h.append a)
    (.cons ⟨file, a, [], by simp, rfl, hs⟩ .nil)

variable {offsets : List Nat}

theorem holds_new (limits : SpillLimits) : (new (α := α) limits none).Holds [] [] :=
  ⟨[], stores_new limits, rfl, .nil⟩

theorem Holds.push [EstimatedSize α] (h : v.Holds rows offsets) (hx : ∃ a, encode x = .ok a) :
    ∃ offset v', v.push x = .ok (offset, v') ∧
      v'.Holds (rows ++ [x]) (offsets ++ offset.toList) := by
  obtain ⟨segments, hstores, rfl, hlocated⟩ := h
  rcases hstores.push hx with ⟨v', hpush, hstores', hcontents, hbuffer⟩ |
    ⟨a, v', hpush, hstores', hcontents, hsegment, hbuffer⟩
  · refine ⟨none, v', hpush, segments, hstores', by rw [hbuffer, append_assoc], ?_⟩
    simpa [hcontents] using hlocated
  · refine ⟨_, v', hpush, _, hstores', by simp [hbuffer], ?_⟩
    rw [hcontents]
    exact located_concat hlocated hsegment

theorem Holds.flush (h : v.Holds rows offsets) :
    ∃ offset v', v.flush = .ok (offset, v') ∧ v'.Holds rows (offsets ++ offset.toList) ∧
      v'.buffer = [] := by
  obtain ⟨segments, hstores, rfl, hlocated⟩ := h
  by_cases hnil : v.buffer = []
  · exact ⟨none, v, flush_nil hnil, ⟨segments, hstores, rfl, by simpa using hlocated⟩, hnil⟩
  · obtain ⟨a, v', hflush, hstores', hcontents, hsegment, hbuffer⟩ := hstores.flush hnil
    refine ⟨_, v', hflush, ⟨_, hstores', by simp [hbuffer], ?_⟩, hbuffer⟩
    rw [hcontents]
    exact located_concat hlocated hsegment

theorem Holds.pushAll [EstimatedSize α] {more : List α} (h : v.Holds rows offsets)
    (hmore : ∀ x ∈ more, ∃ a, encode x = .ok a) :
    ∃ offsets' v', v.pushAll more = .ok (offsets', v') ∧
      v'.Holds (rows ++ more) (offsets ++ offsets') := by
  induction more generalizing v rows offsets with
  | nil => exact ⟨[], v, rfl, by simpa using h⟩
  | cons x more ih =>
    rw [forall_mem_cons] at hmore
    obtain ⟨offset, v', hpush, h'⟩ := h.push hmore.1
    obtain ⟨offsets', v'', hall, h''⟩ := ih h' hmore.2
    refine ⟨offset.toList ++ offsets', v'', ?_, by simpa using h''⟩
    rw [pushAll, hpush, ok_bind]
    dsimp only
    rw [hall]
    rfl

/-- Where reading starts. -/
theorem Stores.intoIter_eq (h : v.Stores id segments) : v.intoIter =
    if segments.isEmpty then .memory v.buffer
    else .spilled ⟨v.contents, 0⟩ v.buffer v.contents := by
  have hspilled := h.spilled
  rw [intoIter, h.runOnFlush_eq, contents]
  cases hfile : v.file with
  | none =>
    rw [isSpilled, hfile] at hspilled
    rw [if_pos (by simpa using hspilled)]
    rfl
  | some file =>
    rw [isSpilled, hfile] at hspilled
    rw [if_neg (by simpa using hspilled)]
    rfl

end SpillVec

theorem SpillReader.yields_memory (rows : List α) : Yields next (.memory rows) rows := by
  induction rows with
  | nil => exact .done rfl
  | cons x rows ih => exact .more rfl ih

theorem SegmentReader.Before.yields [LawfulSpillCodec α] {reader : SegmentReader}
    (h : reader.Before rows rest) : Yields next reader rows := by
  induction rows generalizing reader with
  | nil => exact .done (next_nil h)
  | cons x rows ih =>
    obtain ⟨reader', hn, hb⟩ := next_cons h
    exact .more hn (ih hb)

/-- A reader of a file that holds all rows starts again. -/
theorem SpillReader.Owed.reset [LawfulSpillCodec α] {file : Bytes} {self : SpillReader α}
    (hs : Segments segments file) (hne : segments.flatten ≠ []) (h : Owed file [] rows self) :
    ∃ reader, self.reset = .ok (.spilled reader [] file) ∧
      Yields SpillReader.next (.spilled reader [] file) segments.flatten := by
  obtain ⟨r, tail, _, _, _, rfl, hleft, -⟩ := h
  obtain rfl := suffix_nil.mp hleft
  obtain _ | ⟨segment, segments⟩ := segments
  · exact absurd rfl hne
  · obtain ⟨reader, c, hreset, hbefore, hsegments⟩ := SegmentReader.reset_cons hs [] []
    rw [append_nil] at hreset hbefore
    refine ⟨reader, ?_, ?_⟩
    · have hreset' : SegmentReader.reset file 0 = .ok reader := hreset
      rw [SpillReader.reset, isEmpty_nil, if_pos rfl, hreset']
      rfl
    · have hyields := @yields_spilled α _ segment [] segments c reader file _ hbefore hsegments
      rwa [append_nil] at hyields

namespace SpillVec

variable {v : SpillVec α} {offsets : List Nat}

/-- All rows are in the file, and reading starts at its beginning. -/
theorem Holds.owed (h : v.Holds rows offsets) (hbuffer : v.buffer = []) (hne : rows ≠ []) :
    ∃ segments, Segments segments v.contents ∧ segments.flatten = rows ∧
      SpillReader.Owed v.contents [] rows v.intoIter := by
  obtain ⟨segments, hstores, hrows, -⟩ := h
  rw [hbuffer, append_nil] at hrows
  subst hrows
  refine ⟨segments, hstores.written, rfl, ⟨v.contents, 0⟩, [], [], segments, v.contents, ?_,
    suffix_rfl, before_zero _, hstores.written, by simp⟩
  rw [hstores.intoIter_eq, hbuffer, if_neg]
  rintro hempty
  rw [isEmpty_iff.mp hempty] at hne
  exact hne rfl

variable [LawfulSpillCodec α]

theorem Holds.yields (h : v.Holds rows offsets) : Yields SpillReader.next v.intoIter rows := by
  obtain ⟨segments, hstores, rfl, -⟩ := h
  rw [hstores.intoIter_eq]
  cases segments with
  | nil => exact SpillReader.yields_memory _
  | cons segment segments =>
    exact SpillReader.yields_spilled (before_zero _) hstores.written

theorem Holds.openSegment (h : v.Holds rows offsets) :
    ∃ segments, segments.flatten ++ v.buffer = rows ∧ Forall₂ (fun offset segment =>
      ∃ reader, v.intoIter.openSegment offset = .ok reader ∧
        Yields next reader segment) offsets segments := by
  obtain ⟨segments, hstores, hrows, hlocated⟩ := h
  refine ⟨segments, hrows, ?_⟩
  cases segments with
  | nil =>
    cases hlocated
    exact .nil
  | cons segment segments =>
    rw [hstores.intoIter_eq]
    refine hlocated.imp ?_
    rintro offset segment ⟨front, b, rest, hfile, rfl, hs⟩
    obtain ⟨reader, c, hreset, hbefore, -⟩ := reset_cons hs front rest
    refine ⟨reader, ?_, hbefore.yields⟩
    rw [← hfile] at hreset
    exact hreset

/-- After any calls a reader of a flushed vector starts again. -/
theorem Holds.reset (h : v.Holds rows offsets) (hbuffer : v.buffer = []) (hne : rows ≠ [])
    {self : SpillReader α}
    (hself : Relation.ReflTransGen (fun s t => ∃ row, SpillReader.next s = .ok (row, t))
      v.intoIter self) : ∃ self', self.reset = .ok self' ∧ Yields SpillReader.next self' rows := by
  obtain ⟨segments, hs, rfl, howed⟩ := h.owed hbuffer hne
  have hkept : ∃ left, SpillReader.Owed v.contents [] left self := by
    induction hself with
    | refl => exact ⟨_, howed⟩
    | tail _ hnext ih =>
      obtain ⟨row, hnext⟩ := hnext
      obtain ⟨left, howed⟩ := ih
      obtain ⟨self', hn, howed'⟩ := howed.next
      rw [hnext] at hn
      cases hn
      exact ⟨_, howed'⟩
  obtain ⟨left, hleft⟩ := hkept
  obtain ⟨reader, hreset, hyields⟩ := hleft.reset hs hne
  exact ⟨_, hreset, hyields⟩

end SpillVec

/-- Rows whose values can be written are read back in order, each segment by its own reader, and
once they are flushed again after every reset. -/
theorem SpillVec.pushAll_read [DecimalLayout] [EstimatedSize Tuple] (limits : SpillLimits)
    {rows : List Tuple} (hrows : ∀ row ∈ rows, row.spillable = true) :
    ∃ offsets v, (new limits none).pushAll rows = .ok (offsets, v) ∧
      Yields SpillReader.next v.intoIter rows ∧
      (∃ segments, segments.flatten ++ v.buffer = rows ∧ List.Forall₂ (fun offset segment =>
        ∃ reader, v.intoIter.openSegment offset = .ok reader ∧
          Yields SegmentReader.next reader segment) offsets segments) ∧
      ∃ offset v', v.flush = .ok (offset, v') ∧ Yields SpillReader.next v'.intoIter rows ∧
        (∃ segments, segments.flatten = rows ∧ List.Forall₂ (fun offset segment =>
          ∃ reader, v'.intoIter.openSegment offset = .ok reader ∧
            Yields SegmentReader.next reader segment) (offsets ++ offset.toList) segments) ∧
        (rows ≠ [] → ∀ self, Relation.ReflTransGen
            (fun s t => ∃ row, SpillReader.next s = .ok (row, t)) v'.intoIter self →
          ∃ self', self.reset = .ok self' ∧ Yields SpillReader.next self' rows) := by
  obtain ⟨offsets, v, hpush, h⟩ := (holds_new limits).pushAll
    fun row hrow => Tuple.encode_of_spillable (hrows row hrow)
  obtain ⟨offset, v', hflush, h', hbuffer⟩ := h.flush
  refine ⟨offsets, v, hpush, h.yields, h.openSegment, offset, v', hflush, h'.yields, ?_,
    fun hne self hself => h'.reset hbuffer hne hself⟩
  obtain ⟨segments, hsegments, hreaders⟩ := h'.openSegment
  rw [hbuffer, append_nil] at hsegments
  exact ⟨segments, hsegments, hreaders⟩

theorem SpillVec.pushAll_read_three :
    let _ := DecimalLayout.flagsFirst
    let _ : EstimatedSize Tuple := ⟨fun _ => 0⟩
    ∃ offsets v, (new (α := Tuple) ⟨2, 100⟩ none).pushAll
        [⟨some (.int32 1), [.null]⟩, ⟨none, []⟩, ⟨none, [.int32 3]⟩] = .ok (offsets, v) ∧
      Yields SpillReader.next v.intoIter
        [⟨some (.int32 1), [.null]⟩, ⟨none, []⟩, ⟨none, [.int32 3]⟩] := by
  obtain ⟨offsets, v, hpush, hyields, -⟩ := @SpillVec.pushAll_read .flagsFirst ⟨fun _ => 0⟩ ⟨2, 100⟩
    [⟨some (.int32 1), [.null]⟩, ⟨none, []⟩, ⟨none, [.int32 3]⟩] (by decide)
  exact ⟨offsets, v, hpush, hyields⟩

/-- Rows that were never written to a file are read once and not reset. -/
theorem SpillVec.reset_refuses_memory :
    let _ := DecimalLayout.flagsFirst
    let _ : EstimatedSize Tuple := ⟨fun _ => 0⟩
    ∃ v, (new (α := Tuple) ⟨2, 100⟩ none).pushAll [⟨none, [.int32 1]⟩] = .ok ([], v) ∧
      Yields SpillReader.next v.intoIter [⟨none, [.int32 1]⟩] ∧
      v.intoIter.reset =
        .error (.error (.invalidValue "cannot reset an in-memory SpillReader")) :=
  ⟨_, rfl, .more rfl (.done rfl), rfl⟩

end KiteSQL
