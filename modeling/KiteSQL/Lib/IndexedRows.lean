import Mathlib.Tactic

/-! Rows under keys, and an index whose entries name the rows they were made from. -/
namespace IndexedRows

open Function Option

variable {K R E V : Type}

/-- Which entry a row has in the index, and which row a stored entry names. -/
structure Scheme (K R E V : Type) where
  entry : K → R → Option E
  names : V → Option K

/-- The index holds precisely one entry per row. -/
structure Exact (S : Scheme K R E V) (rows : K → Option R) (entries : E → Option V) : Prop where
  listed : ∀ k r, rows k = some r →
    ∃ e v, S.entry k r = some e ∧ entries e = some v ∧ S.names v = some k
  points : ∀ e v, entries e = some v →
    ∃ k r, S.names v = some k ∧ rows k = some r ∧ S.entry k r = some e

variable {S : Scheme K R E V} {rows : K → Option R} {entries : E → Option V}
  {k k' : K} {r r' : R} {e : E} {v : V}

theorem update_eq_some_iff [DecidableEq K] {f : K → Option V} {o : Option V} :
    update f k o k' = some v ↔ k' = k ∧ o = some v ∨ k' ≠ k ∧ f k' = some v := by
  by_cases h : k' = k
  · subst h
    simp
  · simp [h]

theorem exact_empty : Exact S (fun _ => none) (fun _ => none) := by
  constructor <;> simp

theorem Exact.entry_eq (h : Exact S rows entries) (hr : rows k = some r)
    (he : S.entry k r = some e) : ∃ v, entries e = some v ∧ S.names v = some k := by
  obtain ⟨e', v, he', hv, hn⟩ := h.listed k r hr
  rw [he] at he'
  cases he'
  exact ⟨v, hv, hn⟩

/-- Different rows have different entries. -/
theorem Exact.entry_injective (h : Exact S rows entries) (hr : rows k = some r)
    (hr' : rows k' = some r') (he : S.entry k r = some e) (he' : S.entry k' r' = some e) :
    k = k' := by
  obtain ⟨v, hv, hn⟩ := h.entry_eq hr he
  obtain ⟨v', hv', hn'⟩ := h.entry_eq hr' he'
  rw [hv] at hv'
  cases hv'
  rw [hn] at hn'
  exact some.inj hn'

/-- An entry that could only name an absent row is not there. -/
theorem Exact.free (h : Exact S rows entries) (hk : rows k = none)
    (hf : ∀ v, entries e = some v → S.names v = some k) : entries e = none := by
  cases hv : entries e with
  | none => rfl
  | some v =>
    obtain ⟨k', r, hn, hr, -⟩ := h.points e v hv
    rw [hf v hv] at hn
    cases hn
    rw [hk] at hr
    cases hr

/-- An entry names a row that has another one. -/
structure Stale (S : Scheme K R E V) (rows : K → Option R) (entries : E → Option V) (k : K) (r : R)
    (e : E) (v : V) : Prop where
  row : rows k = some r
  stored : entries e = some v
  names : S.names v = some k
  differs : S.entry k r ≠ some e

theorem Stale.not_exact (h : Stale S rows entries k r e v) : ¬ Exact S rows entries := by
  intro he
  obtain ⟨k', r', hn, hr, hentry⟩ := he.points e v h.stored
  rw [h.names] at hn
  cases hn
  rw [h.row] at hr
  cases hr
  exact h.differs hentry

/-- Every entry names a row that is there. -/
def Grounded (S : Scheme K R E V) (rows : K → Option R) (entries : E → Option V) : Prop :=
  ∀ e v, entries e = some v → ∃ k r, S.names v = some k ∧ rows k = some r

theorem Exact.grounded (h : Exact S rows entries) : Grounded S rows entries := by
  intro e v hv
  obtain ⟨k, r, hn, hr, -⟩ := h.points e v hv
  exact ⟨k, r, hn, hr⟩

/-- The only entry that names a key. -/
structure Only (S : Scheme K R E V) (entries : E → Option V) (k : K) (e : E) : Prop where
  stored : ∃ v, entries e = some v ∧ S.names v = some k
  only : ∀ e' v, entries e' = some v → S.names v = some k → e' = e

section Only

variable [DecidableEq E] {k₁ : K} {e₁ : E} {v₁ : V}

theorem Only.add_other (h : Only S entries k e) (hn : S.names v₁ = some k₁) (hk : k ≠ k₁)
    (he : e ≠ e₁) : Only S (update entries e₁ (some v₁)) k e := by
  obtain ⟨v, hv, hnv⟩ := h.stored
  refine ⟨⟨v, by rw [update_of_ne he, hv], hnv⟩, fun e' v' hv' hn' => ?_⟩
  rcases update_eq_some_iff.mp hv' with ⟨rfl, ⟨⟩⟩ | ⟨hee, hv'⟩
  · rw [hn] at hn'
    exact absurd (some.inj hn').symm hk
  · exact h.only e' v' hv' hn'

theorem Grounded.only_add (h : Grounded S rows entries) (hk : rows k = none)
    (hn : S.names v = some k) : Only S (update entries e (some v)) k e := by
  refine ⟨⟨v, update_self .., hn⟩, fun e' v' hv' hn' => ?_⟩
  by_contra hee
  rw [update_of_ne hee] at hv'
  obtain ⟨k', r, hnk, hr⟩ := h e' v' hv'
  rw [hn'] at hnk
  cases hnk
  rw [hk] at hr
  cases hr

theorem Grounded.insert [DecidableEq K] (h : Grounded S rows entries) (hn : S.names v = some k) :
    Grounded S (update rows k (some r)) (update entries e (some v)) := by
  intro e' v' hv'
  rcases update_eq_some_iff.mp hv' with ⟨rfl, ⟨⟩⟩ | ⟨hee, hv'⟩
  · exact ⟨k, r, hn, update_self ..⟩
  · obtain ⟨k', r', hn', hr'⟩ := h e' v' hv'
    by_cases hkk : k' = k
    · subst hkk
      exact ⟨k', r, hn', update_self ..⟩
    · exact ⟨k', r', hn', by rw [update_of_ne hkk, hr']⟩

end Only

variable [DecidableEq K]

variable [DecidableEq E]

section

variable (h : Exact S rows entries)
include h

theorem Exact.insert (hk : rows k = none) (hf : entries e = none) (he : S.entry k r = some e)
    (hn : S.names v = some k) : Exact S (update rows k (some r)) (update entries e (some v)) := by
  constructor
  · intro k' r' hr'
    rcases update_eq_some_iff.mp hr' with ⟨rfl, ⟨⟩⟩ | ⟨hkk, hr'⟩
    · exact ⟨e, v, he, update_self .., hn⟩
    · obtain ⟨e', v', he', hv', hn'⟩ := h.listed k' r' hr'
      have hne : e' ≠ e := by
        rintro rfl
        rw [hf] at hv'
        cases hv'
      exact ⟨e', v', he', by rw [update_of_ne hne, hv'], hn'⟩
  · intro e' v' hv'
    rcases update_eq_some_iff.mp hv' with ⟨rfl, ⟨⟩⟩ | ⟨hee, hv'⟩
    · exact ⟨k, r, hn, update_self .., he⟩
    · obtain ⟨k', r', hn', hr', he'⟩ := h.points e' v' hv'
      have hne : k' ≠ k := by
        rintro rfl
        rw [hk] at hr'
        cases hr'
      exact ⟨k', r', hn', by rw [update_of_ne hne, hr'], he'⟩

theorem Exact.remove (hk : rows k = some r) (he : S.entry k r = some e) :
    Exact S (update rows k none) (update entries e none) := by
  constructor
  · intro k' r' hr'
    rcases update_eq_some_iff.mp hr' with ⟨rfl, ⟨⟩⟩ | ⟨hkk, hr'⟩
    obtain ⟨e', v', he', hv', hn'⟩ := h.listed k' r' hr'
    have hne : e' ≠ e := by
      rintro rfl
      exact hkk (h.entry_injective hr' hk he' he)
    exact ⟨e', v', he', by rw [update_of_ne hne, hv'], hn'⟩
  · intro e' v' hv'
    rcases update_eq_some_iff.mp hv' with ⟨rfl, ⟨⟩⟩ | ⟨hee, hv'⟩
    obtain ⟨k', r', hn', hr', he'⟩ := h.points e' v' hv'
    have hne : k' ≠ k := by
      rintro rfl
      rw [hk] at hr'
      cases hr'
      rw [he] at he'
      exact hee (some.inj he').symm
    exact ⟨k', r', hn', by rw [update_of_ne hne, hr'], he'⟩

/-- A row that is replaced by one with the same entry, which may be written anew. -/
theorem Exact.replace (hk : rows k = some r) (he : S.entry k r = some e)
    (he' : S.entry k r' = some e) (hn : S.names v = some k) :
    Exact S (update rows k (some r')) (update entries e (some v)) := by
  have hr := (h.remove hk he).insert (update_self ..) (update_self ..) he' hn
  rwa [update_idem, update_idem] at hr

/-- A row that is replaced by one with the same entry, which stays. -/
theorem Exact.rewrite (hk : rows k = some r) (he : S.entry k r = some e)
    (he' : S.entry k r' = some e) : Exact S (update rows k (some r')) entries := by
  obtain ⟨v, hv, hn⟩ := h.entry_eq hk he
  have hr := h.replace hk he he' hn
  rwa [← hv, update_eq_self e entries] at hr

/-- An entry that is added for a key is right when the row there has it. -/
theorem Exact.add_entry_iff (hn : S.names v = some k) :
    Exact S rows (update entries e (some v)) ↔ ∃ r, rows k = some r ∧ S.entry k r = some e := by
  constructor
  · intro h'
    obtain ⟨k', r, hn', hr, he⟩ := h'.points e v (update_self ..)
    rw [hn] at hn'
    cases hn'
    exact ⟨r, hr, he⟩
  · rintro ⟨r, hr, he⟩
    have h' := h.replace hr he he hn
    rwa [← hr, update_eq_self] at h'

end

/-- A row written under a key with an entry made for it. -/
structure Version (K R E V : Type) where
  key : K
  row : R
  entry : E
  pointer : V

/-- Writing rows over what is under their keys, and adding their entries without looking for the
entries of the rows they replace. -/
inductive Upserts (S : Scheme K R E V) : List (Version K R E V) →
    (K → Option R) → (E → Option V) → (K → Option R) → (E → Option V) → Prop
  | nil (rows : K → Option R) (entries : E → Option V) : Upserts S [] rows entries rows entries
  | cons {x : Version K R E V} {xs : List (Version K R E V)} {rows rows' : K → Option R}
      {entries entries' : E → Option V} : S.names x.pointer = some x.key →
      (∀ v, entries x.entry = some v → S.names v = some x.key) →
      Upserts S xs (update rows x.key (some x.row)) (update entries x.entry (some x.pointer))
        rows' entries' →
      Upserts S (x :: xs) rows entries rows' entries'

variable {x : Version K R E V} {xs : List (Version K R E V)} {rows' : K → Option R}
  {entries' : E → Option V}

section

variable (h : Upserts S xs rows entries rows' entries')
include h

/-- Entries are never taken away, and go on naming the same row. -/
theorem Upserts.names_of (hv : entries e = some v) (hn : S.names v = some k) :
    ∃ v', entries' e = some v' ∧ S.names v' = some k := by
  induction h generalizing v with
  | nil => exact ⟨v, hv, hn⟩
  | @cons x xs rows rows' entries entries' hx hf _ ih =>
    by_cases hee : e = x.entry
    · subst hee
      refine ih (update_self ..) ?_
      rw [hx, ← hf v hv, hn]
    · exact ih (by rw [update_of_ne hee, hv]) hn

theorem Upserts.names_version (hx : x ∈ xs) :
    ∃ v, entries' x.entry = some v ∧ S.names v = some x.key := by
  induction h with
  | nil => simp at hx
  | @cons y ys rows rows' entries entries' hy _ hys ih =>
    rcases List.mem_cons.mp hx with rfl | hx
    · exact hys.names_of (update_self ..) hy
    · exact ih hx

/-- The row under a key is the last version written there. -/
theorem Upserts.rows_eq (k : K) :
    (∀ y ∈ xs, y.key ≠ k) ∧ rows' k = rows k ∨ ∃ y ∈ xs, y.key = k ∧ rows' k = some y.row := by
  induction h with
  | nil => exact Or.inl ⟨by simp, rfl⟩
  | @cons y ys rows rows' entries entries' _ _ _ ih =>
    rcases ih with ⟨hne, hr⟩ | ⟨z, hz, hk, hr⟩
    · by_cases hyk : y.key = k
      · subst hyk
        exact Or.inr ⟨y, by simp, rfl, by rw [hr, update_self]⟩
      · refine Or.inl ⟨by simpa [hyk] using hne, ?_⟩
        rw [hr, update_of_ne (Ne.symm hyk)]
    · exact Or.inr ⟨z, by simp [hz], hk, hr⟩

end

/-- The versions agree with each other and with the row they replace on the entry. -/
structure Agrees (S : Scheme K R E V) (rows : K → Option R) (xs : List (Version K R E V))
    (x : Version K R E V) : Prop where
  entry : S.entry x.key x.row = some x.entry
  versions : ∀ y ∈ xs, y.key = x.key → y.entry = x.entry
  replaced : ∀ r, rows x.key = some r → S.entry x.key r = some x.entry

theorem Exact.upsert (h : Exact S rows entries) (ha : Agrees S rows xs x)
    (hn : S.names x.pointer = some x.key)
    (hf : ∀ v, entries x.entry = some v → S.names v = some x.key) :
    Exact S (update rows x.key (some x.row)) (update entries x.entry (some x.pointer)) := by
  cases hr : rows x.key with
  | none => exact h.insert hr (h.free hr hf) ha.entry hn
  | some r => exact h.replace hr (ha.replaced r hr) ha.entry hn

theorem Upserts.exact (h : Upserts S xs rows entries rows' entries') (he : Exact S rows entries)
    (ha : ∀ x ∈ xs, Agrees S rows xs x) : Exact S rows' entries' := by
  induction h with
  | nil => exact he
  | @cons x xs rows rows' entries entries' hn hf _ ih =>
    have hx := ha x (by simp)
    refine ih (he.upsert hx hn hf) fun y hy => ?_
    have hya := ha y (by simp [hy])
    refine ⟨hya.entry, fun z hz => hya.versions z (by simp [hz]), fun r hr => ?_⟩
    by_cases hk : y.key = x.key
    · rw [hk, update_self] at hr
      cases hr
      rw [hk, hx.entry, hx.versions y (by simp [hy]) hk]
    · rw [update_of_ne hk] at hr
      exact hya.replaced r hr

/-- Writing over rows keeps an index exact when, and only when, no version changes the entry of
its key. -/
theorem Upserts.exact_iff (h : Upserts S xs rows entries rows' entries') (he : Exact S rows entries)
    (hd : ∀ x ∈ xs, ∀ y ∈ xs, x.key = y.key → x.entry = y.entry →
      S.entry y.key y.row = some y.entry → S.entry x.key x.row = some x.entry) :
    Exact S rows' entries' ↔ ∀ x ∈ xs, Agrees S rows xs x := by
  refine ⟨fun he' x hx => ?_, fun ha => h.exact he ha⟩
  obtain ⟨v, hv, hn⟩ := h.names_version hx
  obtain ⟨k, r', hk, hr', her⟩ := he'.points _ v hv
  rw [hn] at hk
  cases hk
  have hsame : ∀ e v, entries' e = some v → S.names v = some x.key → e = x.entry := by
    intro e v hv hn
    obtain ⟨k, r, hk, hr, he⟩ := he'.points e v hv
    rw [hn] at hk
    cases hk
    rw [hr'] at hr
    cases hr
    rw [her] at he
    exact (some.inj he).symm
  have hversions : ∀ y ∈ xs, y.key = x.key → y.entry = x.entry := by
    intro y hy hk
    obtain ⟨w, hw, hnw⟩ := h.names_version hy
    exact hsame y.entry w hw (by rw [hnw, hk])
  refine ⟨?_, hversions, fun r hr => ?_⟩
  · rcases h.rows_eq x.key with ⟨hne, -⟩ | ⟨y, hy, hk, hry⟩
    · exact absurd rfl (hne x hx)
    · rw [hr'] at hry
      cases hry
      have hye := hversions y hy hk
      exact hd x hx y hy hk.symm hye.symm (by rw [hk, hye, her])
  · obtain ⟨e, w, hre, hw, hnw⟩ := he.listed _ r hr
    obtain ⟨w', hw', hnw'⟩ := h.names_of hw hnw
    rw [hre, hsame e w' hw' hnw']

end IndexedRows
