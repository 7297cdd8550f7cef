import KiteSQL.Execution.RecursiveCte

/-! A recursive common table expression returns its generations one after the other, up to the
first empty one. -/
namespace KiteSQL

open Iterate RecursiveRows List SpillCodec Result

/-- A spool keeps the rows that it accepts: they are returned in order, and all of them are read
again. -/
structure Spool.Keeps (S : Spool) (accepts : Tuple → Prop) where
  Written : S.Writer → List Tuple → Prop
  Owes : S.Reader → List Tuple → List Tuple → Prop
  two : ∀ {first tuple}, accepts first → accepts tuple →
    ∃ writer, S.two first tuple = .ok writer ∧ Written writer [first, tuple]
  push : ∀ {writer rows tuple}, Written writer rows → accepts tuple →
    ∃ writer', S.push writer tuple = .ok writer' ∧ Written writer' (rows ++ [tuple])
  finish : ∀ {writer rows}, Written writer rows →
    ∃ reader, S.finish writer = .ok reader ∧ Owes reader rows rows
  next : ∀ {reader all left}, Owes reader all left →
    ∃ reader', S.next reader = .ok (left.head?, reader') ∧ Owes reader' all left.tail
  input : ∀ {reader all left}, Owes reader all left → S.input reader = .ok (all.map .ok)

variable {S : Spool} {accepts : Tuple → Prop} {rows all left : List Tuple} {tuple : Tuple}

namespace RecursiveRows

/-- A generation that is collected. -/
def Collects (keeps : S.Keeps accepts) (rows : List Tuple) : RecursiveRows S → Prop
  | .empty => rows = []
  | .one tuple outputDone => rows = [tuple] ∧ outputDone = false
  | .writing writer => keeps.Written writer rows ∧ rows ≠ []
  | .reading _ => False

/-- A generation that is returned: all its rows, and those that are left. -/
def Owes (keeps : S.Keeps accepts) (all left : List Tuple) : RecursiveRows S → Prop
  | .empty => all = [] ∧ left = []
  | .one tuple outputDone => all = [tuple] ∧ left = if outputDone then [] else [tuple]
  | .writing _ => False
  | .reading reader => keeps.Owes reader all left ∧ all ≠ []

variable {keeps : S.Keeps accepts} {self : RecursiveRows S}

theorem push_collects (h : self.Collects keeps rows) (ht : accepts tuple)
    (hrows : ∀ row ∈ rows, accepts row) :
    ∃ self', self.push tuple = .ok self' ∧ self'.Collects keeps (rows ++ [tuple]) := by
  cases self with
  | empty =>
    obtain rfl : rows = [] := h
    exact ⟨_, rfl, rfl, rfl⟩
  | one first done =>
    obtain ⟨rfl, rfl⟩ := h
    obtain ⟨writer, hw, hwritten⟩ := keeps.two (hrows first (by simp)) ht
    exact ⟨.writing writer, by rw [push, hw]; rfl, hwritten, by simp⟩
  | writing writer =>
    obtain ⟨writer', hw, hwritten⟩ := keeps.push h.1 ht
    exact ⟨.writing writer', by rw [push, hw]; rfl, hwritten, by simp⟩
  | reading => cases h

theorem pushAll_collects (h : self.Collects keeps rows) (hrows : ∀ row ∈ rows ++ all, accepts row) :
    ∃ self', pushAll (all.map .ok) self = .ok self' ∧ self'.Collects keeps (rows ++ all) := by
  induction all generalizing self rows with
  | nil => exact ⟨self, rfl, by simpa using h⟩
  | cons row all ih =>
    obtain ⟨self', hp, hc⟩ := push_collects h (hrows row (by simp))
      fun r hr => hrows r (by simp [hr])
    obtain ⟨self'', hall, hc'⟩ := ih hc (by simpa using hrows)
    refine ⟨self'', ?_, by simpa using hc'⟩
    rw [map_cons, pushAll, ok_bind, hp]
    exact hall

theorem finish_owes (h : self.Collects keeps rows) :
    ∃ self', self.finish = .ok self' ∧ self'.Owes keeps rows rows := by
  cases self with
  | empty =>
    obtain rfl : rows = [] := h
    exact ⟨_, rfl, rfl, rfl⟩
  | one tuple done =>
    obtain ⟨rfl, rfl⟩ := h
    exact ⟨_, rfl, rfl, rfl⟩
  | writing writer =>
    obtain ⟨reader, hr, howes⟩ := keeps.finish h.1
    exact ⟨.reading reader, by rw [finish, hr]; rfl, howes, h.2⟩
  | reading => cases h

/-- The rows of a source become the next generation. -/
theorem collected (keeps : S.Keeps accepts) (hrows : ∀ row ∈ rows, accepts row) :
    ∃ next working, pushAll (rows.map .ok) (.empty : RecursiveRows S) = .ok next ∧
      next.finish = .ok working ∧ working.Owes keeps rows rows := by
  have hempty : (.empty : RecursiveRows S).Collects keeps [] := rfl
  obtain ⟨next, hnext, hcollects⟩ := pushAll_collects hempty (by simpa using hrows)
  obtain ⟨working, hfinish, howes⟩ := finish_owes hcollects
  exact ⟨next, working, hnext, hfinish, howes⟩

theorem nextOutput_owes (h : self.Owes keeps all left) :
    ∃ self', self.nextOutput = .ok (left.head?, self') ∧ self'.Owes keeps all left.tail := by
  cases self with
  | empty =>
    obtain ⟨rfl, rfl⟩ := h
    exact ⟨_, rfl, rfl, rfl⟩
  | one tuple done =>
    obtain ⟨rfl, rfl⟩ := h
    cases done with
    | false => exact ⟨_, rfl, rfl, rfl⟩
    | true => exact ⟨_, rfl, rfl, rfl⟩
  | writing => cases h
  | reading reader =>
    obtain ⟨reader', hn, howes⟩ := keeps.next h.1
    exact ⟨.reading reader', by rw [nextOutput, hn]; rfl, howes, h.2⟩

theorem intoInput_owes (h : self.Owes keeps all left) :
    self.intoInput = .ok (if all.isEmpty then none else some (all.map .ok)) := by
  cases self with
  | empty =>
    obtain ⟨rfl, -⟩ := h
    rfl
  | one tuple done =>
    obtain ⟨rfl, -⟩ := h
    rfl
  | writing => cases h
  | reading reader =>
    rw [intoInput, keeps.input h.1, if_neg (by simpa using h.2)]
    rfl

end RecursiveRows

namespace RecursiveCte

variable {keeps : S.Keeps accepts} {it it' : RecursiveCte S}
  {plan : List (Result Tuple) → List (Result Tuple)} {result : Option Tuple} {fuel : Nat}

theorem loop_return (h : it.turn = .ok (some result, it')) :
    loop (fuel + 1) it = .ok (result, it') := by
  rw [loop, h]
  rfl

theorem loop_continue (h : it.turn = .ok (none, it')) : loop (fuel + 1) it = loop fuel it' := by
  rw [loop, h]
  rfl

/-- A generation is returned, with some rows left. -/
structure Outputs (keeps : S.Keeps accepts) (plan : List (Result Tuple) → List (Result Tuple))
    (all left : List Tuple) (it : RecursiveCte S) : Prop where
  phase : it.phase = .output
  next : it.next = .empty
  recursivePlan : it.recursivePlan = plan
  working : it.working.Owes keeps all left

/-- The recursive term is about to be run on a generation. -/
structure Recurses (plan : List (Result Tuple) → List (Result Tuple)) (all : List Tuple)
    (it : RecursiveCte S) : Prop where
  phase : it.phase = .recursive
  next : it.next = .empty
  recursivePlan : it.recursivePlan = plan
  recursiveRoot : it.recursiveRoot = plan (all.map .ok)

theorem turn_anchor (keeps : S.Keeps accepts) (hrows : ∀ row ∈ rows, accepts row) :
    ∃ it, (new S (rows.map .ok) plan).turn = .ok (none, it) ∧ it.Outputs keeps plan rows rows := by
  obtain ⟨next, working, hnext, hfinish, howes⟩ :=
    collected keeps hrows
  refine ⟨⟨plan, [], [], working, .empty, .output⟩, ?_, rfl, rfl, rfl, howes⟩
  rw [turn, new]
  dsimp only
  rw [hnext, ok_bind, hfinish]
  rfl

theorem turn_recursive (h : it.Recurses plan all) (hplan : plan (all.map .ok) = rows.map .ok)
    (keeps : S.Keeps accepts) (hrows : ∀ row ∈ rows, accepts row) :
    ∃ it', it.turn = .ok (none, it') ∧ it'.Outputs keeps plan rows rows := by
  obtain ⟨next, working, hnext, hfinish, howes⟩ :=
    collected keeps hrows
  refine ⟨{ it with recursiveRoot := [], working := working, next := .empty, phase := .output },
    ?_, rfl, rfl, h.recursivePlan, howes⟩
  rw [turn, h.phase]
  dsimp only
  rw [h.recursiveRoot, hplan, h.next, hnext, ok_bind, hfinish]
  rfl

theorem turn_row (h : it.Outputs keeps plan all (tuple :: left)) :
    ∃ it', it.turn = .ok (some (some tuple), it') ∧ it'.Outputs keeps plan all left := by
  obtain ⟨working, hn, howes⟩ := nextOutput_owes h.working
  refine ⟨{ it with working := working }, ?_, h.phase, h.next, h.recursivePlan, howes⟩
  rw [turn, h.phase]
  dsimp only
  rw [hn]
  rfl

/-- Behind the last row of a generation the recursive term is started, unless there was none. -/
theorem turn_end (h : it.Outputs keeps plan all []) :
    (all = [] ∧ ∃ it', it.turn = .ok (some none, it')) ∨
      all ≠ [] ∧ ∃ it', it.turn = .ok (none, it') ∧ it'.Recurses plan all := by
  obtain ⟨working, hn, howes⟩ := nextOutput_owes h.working
  have hinput := intoInput_owes howes
  have hturn : it.turn = ({ it with working := working }.startRecursive >>= fun res =>
      if res.1 then .ok (none, { res.2 with phase := .recursive }) else .ok (some none, res.2)) := by
    rw [turn, h.phase]
    dsimp only
    rw [hn]
    rfl
  by_cases hall : all = []
  · refine Or.inl ⟨hall, { it with working := .empty }, hturn.trans ?_⟩
    rw [startRecursive, hinput, hall]
    rfl
  · refine Or.inr ⟨hall, { it with
      working := .empty, recursiveRoot := it.recursivePlan (all.map .ok), phase := .recursive },
      hturn.trans ?_, rfl, h.next, h.recursivePlan, by rw [← h.recursivePlan]⟩
    rw [startRecursive, hinput, if_neg (by simpa using hall)]
    rfl

theorem nextTuple_row (h : it.Outputs keeps plan all (tuple :: left)) :
    ∃ it', nextTuple it = .ok (some tuple, it') ∧ it'.Outputs keeps plan all left := by
  obtain ⟨it', ht, h'⟩ := turn_row h
  exact ⟨it', loop_return ht, h'⟩

/-- The rest of a generation. -/
theorem emits_left (h : it.Outputs keeps plan all left) :
    ∃ it', Emits nextTuple it left it' ∧ it'.Outputs keeps plan all [] := by
  induction left generalizing it with
  | nil => exact ⟨it, .nil it, h⟩
  | cons tuple left ih =>
    obtain ⟨it', hn, h'⟩ := nextTuple_row h
    obtain ⟨it'', he, h''⟩ := ih h'
    exact ⟨it'', .cons hn he, h''⟩

/-- The generations up to some one have been returned. -/
def Ready (keeps : S.Keeps accepts) (plan : List (Result Tuple) → List (Result Tuple))
    (G : Nat → List Tuple) (it : RecursiveCte S) : Nat → Prop
  | 0 => it = new S ((G 0).map .ok) plan
  | k + 1 => it.Outputs keeps plan (G k) []

variable {G : Nat → List Tuple} {k n : Nat}

/-- The next generation, or the end if it is empty. -/
theorem Ready.starts (h : Ready keeps plan G it k) (hrows : ∀ row ∈ G k, accepts row)
    (hstep : ∀ j, k = j + 1 → G j ≠ [] ∧ plan ((G j).map .ok) = (G k).map .ok) :
    ∃ it' fuel, nextTuple it = loop (fuel + 1) it' ∧ it'.Outputs keeps plan (G k) (G k) := by
  cases k with
  | zero =>
    obtain rfl : it = new S ((G 0).map .ok) plan := h
    obtain ⟨it', ht, h'⟩ := turn_anchor keeps hrows
    exact ⟨it', 1, loop_continue ht, h'⟩
  | succ j =>
    obtain ⟨hne, hplan⟩ := hstep j rfl
    rcases turn_end h with ⟨hnil, -⟩ | ⟨-, it', ht, hrec⟩
    · exact absurd hnil hne
    · obtain ⟨it'', ht', h'⟩ := turn_recursive hrec hplan keeps hrows
      exact ⟨it'', 0, (loop_continue ht).trans (loop_continue ht'), h'⟩

theorem Ready.generation (h : Ready keeps plan G it k) (hrows : ∀ row ∈ G k, accepts row)
    (hstep : ∀ j, k = j + 1 → G j ≠ [] ∧ plan ((G j).map .ok) = (G k).map .ok) (hne : G k ≠ []) :
    ∃ it', Emits nextTuple it (G k) it' ∧ Ready keeps plan G it' (k + 1) := by
  obtain ⟨it', fuel, hn, h'⟩ := h.starts hrows hstep
  obtain ⟨tuple, left, hg⟩ := exists_cons_of_ne_nil hne
  rw [hg] at h'
  obtain ⟨it'', ht, h''⟩ := turn_row h'
  obtain ⟨last, he, hlast⟩ := emits_left h''
  refine ⟨last, ?_, ?_⟩
  · rw [hg]
    exact .cons (hn.trans (loop_return ht)) he
  · rw [← hg] at hlast
    exact hlast

theorem Ready.ends (h : Ready keeps plan G it k)
    (hstep : ∀ j, k = j + 1 → G j ≠ [] ∧ plan ((G j).map .ok) = (G k).map .ok)
    (hnil : G k = []) : ∃ it', nextTuple it = .ok (none, it') := by
  obtain ⟨it', fuel, hn, h'⟩ := h.starts (by simp [hnil]) hstep
  rw [hnil] at h'
  rcases turn_end h' with ⟨-, it'', ht⟩ | ⟨hne, -⟩
  · exact ⟨it'', hn.trans (loop_return ht)⟩
  · exact absurd rfl hne

/-- Generation after generation. -/
theorem emits_generations (keeps : S.Keeps accepts) (hrows : ∀ k < n, ∀ row ∈ G k, accepts row)
    (hstep : ∀ k, k + 1 < n → plan ((G k).map .ok) = (G (k + 1)).map .ok) (hne : ∀ k < n, G k ≠ [])
    :
    ∃ it, Emits nextTuple (new S ((G 0).map .ok) plan) ((range n).flatMap G) it ∧
      Ready keeps plan G it n := by
  induction n with
  | zero => exact ⟨_, .nil _, rfl⟩
  | succ n ih =>
    obtain ⟨it, he, hready⟩ := ih (fun k hk => hrows k (by omega)) (fun k hk => hstep k (by omega))
      fun k hk => hne k (by omega)
    obtain ⟨it', he', hready'⟩ := hready.generation (hrows n (by omega))
      (fun j hj => ⟨hne j (by omega), by subst hj; exact hstep j (by omega)⟩) (hne n (by omega))
    refine ⟨it', ?_, hready'⟩
    rw [range_succ, flatMap_append, flatMap_singleton]
    exact he.append he'

/-- The generations come one after the other, and the end right after the first empty one. -/
structure Generates (G : Nat → List Tuple) (it : RecursiveCte S) : Prop where
  emits : ∀ n, (∀ k < n, G k ≠ []) → ∃ it', Emits nextTuple it ((List.range n).flatMap G) it'
  ends : ∀ n, (∀ k < n, G k ≠ []) → G n = [] → Yields nextTuple it ((List.range n).flatMap G)

theorem generates (keeps : S.Keeps accepts) (hrows : ∀ k, ∀ row ∈ G k, accepts row)
    (hstep : ∀ k, (∀ j ≤ k, G j ≠ []) → plan ((G k).map .ok) = (G (k + 1)).map .ok) :
    (new S ((G 0).map .ok) plan).Generates G := by
  have hemits : ∀ n, (∀ k < n, G k ≠ []) → ∃ it,
      Emits nextTuple (new S ((G 0).map .ok) plan) ((range n).flatMap G) it ∧
        Ready keeps plan G it n := fun n hne =>
    emits_generations keeps (fun k _ => hrows k)
      (fun k hk => hstep k fun j hj => hne j (by omega)) hne
  refine ⟨fun n hne => ?_, fun n hne hnil => ?_⟩
  · obtain ⟨it, he, -⟩ := hemits n hne
    exact ⟨it, he⟩
  · obtain ⟨it, he, hready⟩ := hemits n hne
    have hbefore : ∀ j, n = j + 1 → G j ≠ [] ∧ plan ((G j).map .ok) = (G n).map .ok := by
      rintro j rfl
      exact ⟨hne j (by omega), hstep j fun i hi => hne i (by omega)⟩
    obtain ⟨it', hn⟩ := hready.ends hbefore hnil
    simpa using he.yields (.done hn)

end RecursiveCte

/-- A vector keeps all rows. -/
def keepsVec : vecSpool.Keeps fun _ => True where
  Written writer rows := writer = rows
  Owes reader all left := reader.1 = all ∧ left = all.drop reader.2
  two _ _ := ⟨_, rfl, rfl⟩
  push h _ := ⟨_, rfl, congrArg (· ++ [_]) h⟩
  finish h := ⟨_, rfl, h, rfl⟩
  next := by
    rintro ⟨rows, index⟩ all left ⟨rfl, rfl⟩
    refine ⟨(rows, index + if rows[index]?.isSome then 1 else 0), ?_, rfl, ?_⟩
    · rw [List.head?_drop]
      rfl
    · rw [List.tail_drop]
      cases h : rows[index]? with
      | none =>
        have hlen := List.getElem?_eq_none_iff.mp h
        exact (List.drop_eq_nil_of_le (Nat.le_succ_of_le hlen)).trans
          (List.drop_eq_nil_of_le hlen).symm
      | some tuple => rfl
  input := by
    rintro ⟨rows, index⟩ all left ⟨rfl, -⟩
    rfl

section Spill
variable [DecimalLayout] {v : SpillVec Tuple}

theorem SpillReader.results_eq {reader : SpillReader Tuple} {fuel : Nat}
    (h : Yields next reader rows) (hfuel : rows.length ≤ fuel) :
    reader.results fuel = rows.map .ok := by
  induction fuel generalizing reader rows with
  | zero =>
    obtain rfl := length_eq_zero_iff.mp (Nat.le_zero.mp hfuel)
    rfl
  | succ fuel ih =>
    cases h with
    | done hn => rw [results, hn, map_nil]
    | more hn h =>
      rw [results, hn, map_cons]
      exact congrArg _ (ih h (by simpa using hfuel))

variable [EstimatedSize Tuple]

/-- A spill file keeps the rows whose values can be written. -/
def keepsSpill (limits : SpillLimits) :
    (spillSpool limits).Keeps fun row => row.spillable = true where
  Written v rows := (∃ offsets, SpillVec.Holds v rows offsets) ∧ rows ≠ []
  Owes reader all left := ∃ segments file, Segments segments file ∧ segments.flatten = all ∧
    all ≠ [] ∧ SpillReader.Owed file [] left reader
  two {first tuple} hfirst htuple := by
    obtain ⟨_, v, hpush, hv⟩ := (SpillVec.holds_new limits).push (Tuple.encode_of_spillable hfirst)
    obtain ⟨_, v', hpush', hv'⟩ := hv.push (Tuple.encode_of_spillable htuple)
    refine ⟨v', ?_, ⟨_, hv'⟩, by simp⟩
    change (SpillVec.push _ first >>= _) = _
    rw [hpush, Result.ok_bind]
    dsimp only
    rw [hpush']
    rfl
  push {v rows tuple} h ht := by
    obtain ⟨⟨_, h⟩, -⟩ := h
    obtain ⟨_, v', hpush, hv'⟩ := h.push (Tuple.encode_of_spillable ht)
    refine ⟨v', ?_, ⟨_, hv'⟩, by simp⟩
    change (SpillVec.push v tuple >>= _) = _
    rw [hpush]
    rfl
  finish {v rows} h := by
    obtain ⟨⟨_, h⟩, hne⟩ := h
    obtain ⟨_, v', hflush, hv', hbuffer⟩ := h.flush
    obtain ⟨segments, hs, rfl, howed⟩ := hv'.owed hbuffer hne
    refine ⟨v'.intoIter, ?_, segments, v'.contents, hs, rfl, hne, howed⟩
    change (SpillVec.flush v >>= _) = _
    rw [hflush]
    rfl
  next {reader all left} h := by
    obtain ⟨segments, file, hs, rfl, hne, howed⟩ := h
    obtain ⟨reader', hn, howed'⟩ := howed.next
    exact ⟨reader', hn, segments, file, hs, rfl, hne, howed'⟩
  input {reader all left} h := by
    obtain ⟨segments, file, hs, rfl, hne, howed⟩ := h
    obtain ⟨reader', hreset, hyields⟩ := howed.reset hs hne
    change (SpillReader.reset _ >>= _) = _
    rw [hreset]
    exact congrArg Except.ok (SpillReader.results_eq hyields hs.length_flatten_le)

/-- A recursive expression returns its generations one after the other and ends after the first
empty one, in memory, and with a spill file if the values can be written to it. -/
theorem RecursiveCte.returns_generations (limits : SpillLimits)
    (plan : List (Result Tuple) → List (Result Tuple)) (G : Nat → List Tuple)
    (hstep : ∀ k, (∀ j ≤ k, G j ≠ []) → plan ((G k).map .ok) = (G (k + 1)).map .ok) :
    (new vecSpool ((G 0).map .ok) plan).Generates G ∧
      ((∀ k, ∀ row ∈ G k, row.spillable = true) →
        (new (spillSpool limits) ((G 0).map .ok) plan).Generates G) :=
  ⟨generates keepsVec (fun _ _ _ => trivial) hstep,
    fun hrows => generates (keepsSpill limits) hrows hstep⟩

end Spill

/-- Three rows, of which each generation drops the first. -/
def countDown (k : Nat) : List Tuple := [⟨none, [.int32 3]⟩, ⟨none, [.null]⟩, ⟨none, []⟩].drop k

theorem RecursiveCte.returns_generations_countDown :
    (new vecSpool ((countDown 0).map .ok) List.tail).Generates countDown ∧
      (new (@spillSpool .flagsFirst ⟨fun _ => 0⟩ ⟨1, 100⟩) ((countDown 0).map .ok)
        List.tail).Generates countDown := by
  have h := @returns_generations .flagsFirst ⟨fun _ => 0⟩ ⟨1, 100⟩ List.tail countDown
    (fun k _ => by rw [← List.map_tail, countDown, List.tail_drop, countDown])
  refine ⟨h.1, h.2 fun k row hr => ?_⟩
  have hmem := List.mem_of_mem_drop hr
  simp only [List.mem_cons, List.not_mem_nil, or_false] at hmem
  rcases hmem with rfl | rfl | rfl <;> rfl

/-- The lengths of the texts of a row, a part of its size. -/
@[reducible] def textSize : EstimatedSize Tuple where
  estimatedSize row := (row.values.map fun
    | .utf8 value _ _ => (asBytes value).length
    | _ => 0).sum

theorem SpillVec.push_longText [DecimalLayout] {value : String}
    (h : (asBytes value).length = 2 ^ 32) :
    @SpillVec.push Tuple _ textSize (.new .default none)
      ⟨none, [.utf8 value (.variable none) .octets]⟩ = .error (.error .tryFromInt) := by
  have hfull : SpillLimits.default.maxBytes.toNat ≤ (asBytes value).length + 0 := by
    rw [h]
    decide
  have hsize : SpillLimits.default.maxBytes.toNat ≤
      textSize.estimatedSize ⟨none, [.utf8 value (.variable none) .octets]⟩ := hfull
  have hrun : ∀ x, (⟨[x], 0, none, none, .default⟩ : SpillVec Tuple).runOnFlush = .ok [x] :=
    fun _ => rfl
  have hencode : encode (⟨none, [.utf8 value (.variable none) .octets]⟩ : Tuple) =
      .error (.error .tryFromInt) := by
    have hvalues := DataValue.encode_longText h
    change (encode (none : Option DataValue) >>= fun a =>
      encode [DataValue.utf8 value (.variable none) .octets] >>= _) = _
    rw [hvalues]
    rfl
  exact @SpillVec.push_error Tuple _ _ _ (.new .default none) _ textSize hsize (hrun _)
    (segmentBytes_error hencode)

/-- Two rows with a text of 2 ^ 32 bytes are not returned when they have to be written. -/
theorem RecursiveCte.twoLongTexts_fail :
    ∃ row : Tuple,
      nextTuple (new (@spillSpool .flagsFirst textSize .default) [.ok row, .ok row] fun _ => []) =
        .error (.error .tryFromInt) ∧
      Yields nextTuple (new vecSpool [.ok row, .ok row] fun _ => []) [row, row] := by
  let _ := DecimalLayout.flagsFirst
  let _ := textSize
  have hlen := length_asBytes_replicate (2 ^ 32)
  generalize String.ofList (List.replicate (2 ^ 32) 'a') = value at hlen
  refine ⟨⟨none, [.utf8 value (.variable none) .octets]⟩, ?_, .more rfl (.more rfl (.done rfl))⟩
  have hpush := SpillVec.push_longText hlen
  generalize (⟨none, [.utf8 value (.variable none) .octets]⟩ : Tuple) = row at hpush
  have htwo : (@spillSpool .flagsFirst textSize .default).two row row =
      .error (.error .tryFromInt) := by
    change (SpillVec.push _ row >>= _) = _
    rw [hpush]
    rfl
  have hone : push (S := @spillSpool .flagsFirst textSize .default)
      (.one row false) row = .error (.error .tryFromInt) := by
    rw [push, htwo]
    rfl
  have hturn : (new (@spillSpool .flagsFirst textSize .default) [.ok row, .ok row]
      fun _ => []).turn = .error (.error .tryFromInt) := by
    rw [turn, new]
    dsimp only
    rw [pushAll, Result.ok_bind, push, Result.ok_bind, pushAll, Result.ok_bind, hone]
    rfl
  rw [nextTuple, loop, hturn]
  rfl

end KiteSQL
