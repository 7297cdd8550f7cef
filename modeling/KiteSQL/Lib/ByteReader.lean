import KiteSQL.Lib.Endian

/-! Readers over a remaining byte string, and what it means to read an encoding back. -/

/-- A fallible reader threads the unread bytes. -/
abbrev ByteReader (ε α : Type) := StateT (List UInt8) (Except ε) α

namespace ByteReader

open Endian

variable {ε α γ : Type} {r : ByteReader ε α} {f : α → ByteReader ε γ} {a b : List UInt8} {x : α}
  {y : γ} {n v : Nat} {s s' : List UInt8} {x' : α}

/-- Reads exactly `n` bytes or fails with `e`. -/
def readExact (e : ε) (n : Nat) : ByteReader ε (List UInt8) := fun s =>
  if n ≤ s.length then .ok (s.take n, s.drop n) else .error e

def readByte (e : ε) : ByteReader ε UInt8
  | [] => .error e
  | c :: s => .ok (c, s)

/-- Seeking forward may pass the end, where nothing is left to read. -/
def seek (n : Nat) : ByteReader ε Unit := fun s => .ok ((), s.drop n)

def readLe (e : ε) (n : Nat) : ByteReader ε Nat := do
  let bs ← readExact e n
  return Endian.fromLeBytes bs

def readBe (e : ε) (n : Nat) : ByteReader ε Nat := do
  let bs ← readExact e n
  return Endian.fromBeBytes bs

/-- The reader consumes exactly `a` and returns `x`, whatever follows. -/
def Reads (r : ByteReader ε α) (a : List UInt8) (x : α) : Prop :=
  ∀ s, r (a ++ s) = .ok (x, s)

theorem bind_apply (r : ByteReader ε α) (f : α → ByteReader ε γ) (s : List UInt8) :
    (r >>= f) s = (r s).bind fun p => f p.1 p.2 := rfl

theorem pure_apply (x : α) (s : List UInt8) : (pure x : ByteReader ε α) s = .ok (x, s) := rfl

/-- A sequence of readers succeeds through the results of its parts. -/
theorem bind_eq_ok : (r >>= f) s = .ok (y, s') ↔ ∃ x t, r s = .ok (x, t) ∧ f x t = .ok (y, s') := by
  rw [bind_apply]
  cases r s with
  | error e => simp [Except.bind]
  | ok p =>
    obtain ⟨x, t⟩ := p
    simp [Except.bind]

theorem pure_eq_ok : (pure x : ByteReader ε α) s = .ok (x', s') ↔ x = x' ∧ s = s' := by
  simp [pure_apply]

theorem reads_pure (x : α) : Reads (pure x : ByteReader ε α) [] x := by
  intro s
  rfl

theorem Reads.bind (h : Reads r a x) (hf : Reads (f x) b y) : Reads (r >>= f) (a ++ b) y := by
  intro s
  rw [bind_apply, List.append_assoc, h]
  exact hf s

theorem Reads.bind_nil (h : Reads r a x) (hf : Reads (f x) [] y) : Reads (r >>= f) a y := by
  rw [← List.append_nil a]
  exact h.bind hf

theorem Reads.bind_pure (h : Reads r a x) (g : α → γ) : Reads (r >>= fun x => pure (g x)) a (g x) :=
  h.bind_nil (reads_pure (g x))

/-- A reader that only reshapes what another one read. -/
theorem Reads.map (h : Reads r a x) (g : α → γ) : Reads (g <$> r) a (g x) := by
  intro s
  have := h s
  change (r (a ++ s)).bind (fun p => Except.ok (g p.1, p.2)) = _
  rw [this]
  rfl

/-- What a reader read can be told from an injective image of it. -/
theorem Reads.of_map {g : α → γ} (hg : Function.Injective g)
    (h : Reads (r >>= fun x => pure (g x)) a y) : ∃ x, g x = y ∧ Reads r a x := by
  have hs : ∀ s, ∃ x, g x = y ∧ r (a ++ s) = .ok (x, s) := by
    intro s
    have hr := h s
    rw [bind_apply] at hr
    cases hx : r (a ++ s) with
    | error e =>
      rw [hx] at hr
      cases hr
    | ok p =>
      rw [hx] at hr
      cases hr
      exact ⟨p.1, rfl, rfl⟩
  obtain ⟨x, hx, -⟩ := hs []
  refine ⟨x, hx, fun s => ?_⟩
  obtain ⟨x', hx', hr⟩ := hs s
  rw [hr, hg (hx'.trans hx.symm)]

/-- A computation that reads nothing. -/
theorem reads_lift {c : Except ε α} (h : c = .ok x) : Reads (liftM c : ByteReader ε α) [] x := by
  subst h
  intro s
  rfl

theorem reads_readByte (e : ε) (c : UInt8) : Reads (readByte e) [c] c := by
  intro s
  rfl

theorem reads_readExact (e : ε) (h : a.length = n) : Reads (readExact e n) a a := by
  intro s
  simp [readExact, ← h]

theorem reads_seek (h : a.length = n) : Reads (seek n : ByteReader ε Unit) a () := by
  intro s
  simp [seek, ← h]

theorem reads_readLe (e : ε) (h : v < 256 ^ n) : Reads (readLe e n) (toLeBytes n v) v := by
  have hr := (reads_readExact e (length_toLeBytes n v)).map fromLeBytes
  rwa [fromLeBytes_toLeBytes h] at hr

theorem reads_readBe (e : ε) (h : v < 256 ^ n) : Reads (readBe e n) (toBeBytes n v) v := by
  have hr := (reads_readExact e (length_toBeBytes n v)).map fromBeBytes
  rwa [fromBeBytes_toBeBytes h] at hr

/-- Two code words of the same reader never differ in where they end. -/
theorem Reads.delimits (h : Reads r a x) (h' : Reads r b x') : LexCode.Delimits a b := by
  intro s t hs
  have hr := h s
  rw [hs, h' t] at hr
  cases hr
  exact ⟨List.append_cancel_right hs, rfl⟩

end ByteReader
