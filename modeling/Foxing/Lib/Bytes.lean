import Mathlib.Data.Nat.ModEq
import Mathlib.Data.ZMod.Defs
import Mathlib.Tactic.Common

/-!
# Byte strings and reading from them

Little-endian numbers of a fixed width, fields at fixed offsets of a record, and
readers that consume a byte string from its front. A reader undoes an encoder
when it finds the encoded value again and leaves what comes after it; this is
kept by reading one value after the other.
-/

abbrev Bytes := List (Fin 256)

namespace Bytes

instance neZero : NeZero 256 := ⟨by decide⟩

/-- The `w` low bytes of a number, the lowest one first. -/
def ofNat : ℕ → ℕ → Bytes
  | 0, _ => []
  | w + 1, n => Fin.ofNat 256 n :: ofNat w (n / 256)

def toNat : Bytes → ℕ
  | [] => 0
  | b :: bs => b.val + 256 * toNat bs

@[simp] theorem length_ofNat (w n : ℕ) : (ofNat w n).length = w := by
  induction w generalizing n with
  | zero => rfl
  | succ w ih => simp [ofNat, ih]

/-- A number comes back modulo the width it was written in. -/
theorem toNat_ofNat (w n : ℕ) : toNat (ofNat w n) = n % 256 ^ w := by
  induction w generalizing n with
  | zero => simp [ofNat, toNat, Nat.mod_one]
  | succ w ih =>
    rw [ofNat, toNat, ih, Fin.val_ofNat, pow_succ', Nat.mod_mul]

/-- The number in `w` bytes at an offset. -/
def field (bs : Bytes) (off w : ℕ) : ℕ := toNat ((bs.drop off).take w)

theorem field_append_right {pre : Bytes} {off : ℕ} (h : pre.length ≤ off) (bs : Bytes) (w : ℕ) :
    field (pre ++ bs) off w = field bs (off - pre.length) w := by
  unfold field
  rw [List.drop_append, List.drop_eq_nil_of_le h, List.nil_append]

@[simp] theorem field_append_left (w n : ℕ) (bs : Bytes) :
    field (ofNat w n ++ bs) 0 w = n % 256 ^ w := by
  unfold field
  rw [List.drop_zero, List.take_left' (length_ofNat w n), toNat_ofNat]

theorem field_ofNat (w n : ℕ) : field (ofNat w n) 0 w = n % 256 ^ w := by
  have h := field_append_left w n []
  rwa [List.append_nil] at h

theorem field_take {off w n : ℕ} (h : off + w ≤ n) (bs : Bytes) :
    field (bs.take n) off w = field bs off w := by
  unfold field
  rw [List.drop_take, List.take_take, min_eq_left (by omega)]

theorem toNat_replicate_zero (n : ℕ) : toNat (List.replicate n 0) = 0 := by
  induction n with
  | zero => rfl
  | succ n ih => simp [List.replicate_succ, toNat, ih]

theorem field_zeros {off w n : ℕ} (h : off + w ≤ n) (bs : Bytes) :
    field (List.replicate n 0 ++ bs) off w = 0 := by
  unfold field
  rw [List.drop_append_of_le_length (by simp; omega), List.drop_replicate,
    List.take_append_of_le_length (by simp; omega), List.take_replicate, toNat_replicate_zero]

end Bytes

/-! ## Readers -/

/-- A computation that consumes bytes from the front and may fail. -/
abbrev ByteReader (ε α : Type) := StateT Bytes (Except ε) α

namespace ByteReader
variable {ε α β : Type}

def readExact (eof : ε) (n : ℕ) : ByteReader ε Bytes := fun s =>
  if n ≤ s.length then .ok (s.take n, s.drop n) else .error eof

/-- The same reader, `n` times. -/
def replicate (r : ByteReader ε α) : ℕ → ByteReader ε (List α)
  | 0 => pure []
  | n + 1 => do
    let a ← r
    let as ← replicate r n
    return a :: as

theorem run_bind_ok {m : ByteReader ε α} {k : α → ByteReader ε β} {s s' : Bytes} {a : α}
    (h : m s = .ok (a, s')) : (m >>= k) s = k a s' := by
  show (m s >>= fun p => k p.1 p.2) = _
  rw [h]
  rfl

/-- A result that is not read takes nothing from the stream. -/
theorem run_bind_liftM_ok {k : α → ByteReader ε β} {s : Bytes} {a : α} :
    ((liftM (Except.ok a : Except ε α) : ByteReader ε α) >>= k) s = k a s :=
  rfl

theorem run_bind_error {m : ByteReader ε α} {k : α → ByteReader ε β} {s : Bytes} {e : ε}
    (h : m s = .error e) : (m >>= k) s = .error e := by
  show (m s >>= fun p => k p.1 p.2) = _
  rw [h]
  rfl

/-- What a sequence of readers has found was found by each of them. -/
theorem run_bind_eq_ok {m : ByteReader ε α} {k : α → ByteReader ε β} {s : Bytes} {p : β × Bytes}
    (h : (m >>= k) s = .ok p) : ∃ a s', m s = .ok (a, s') ∧ k a s' = .ok p := by
  cases hm : m s with
  | error e =>
    rw [run_bind_error hm] at h
    cases h
  | ok q =>
    obtain ⟨a, s'⟩ := q
    rw [run_bind_ok hm] at h
    exact ⟨a, s', rfl, h⟩

theorem readExact_append {eof : ε} {n : ℕ} {bs : Bytes} (h : bs.length = n) (rest : Bytes) :
    readExact eof n (bs ++ rest) = .ok (bs, rest) := by
  subst h
  unfold readExact
  rw [if_pos (by simp), List.take_left, List.drop_left]

theorem readExact_eof {eof : ε} {n : ℕ} {s : Bytes} (h : s.length < n) :
    readExact eof n s = .error eof := by
  unfold readExact
  rw [if_neg (by omega)]

/-- Values that were written one after the other are read one after the other. -/
theorem replicate_append {r : ByteReader ε α} {enc : α → Bytes} {as : List α}
    (h : ∀ a ∈ as, ∀ rest, r (enc a ++ rest) = .ok (a, rest)) (rest : Bytes) :
    replicate r as.length (as.flatMap enc ++ rest) = .ok (as, rest) := by
  induction as with
  | nil => rfl
  | cons a as ih =>
    have hhead := h a (by simp) (as.flatMap enc ++ rest)
    have htail := ih fun b hb => h b (by simp [hb])
    rw [List.flatMap_cons, List.append_assoc, List.length_cons]
    show (r >>= fun a => replicate r as.length >>= fun as => pure (a :: as)) _ = _
    rw [run_bind_ok hhead, run_bind_ok htail]
    rfl

theorem length_of_replicate {r : ByteReader ε α} {n : ℕ} {s s' : Bytes} {as : List α}
    (h : replicate r n s = .ok (as, s')) : as.length = n := by
  induction n generalizing s as with
  | zero =>
    cases h
    rfl
  | succ n ih =>
    obtain ⟨a, s₁, -, h⟩ := run_bind_eq_ok h
    obtain ⟨rest, s₂, hrest, h⟩ := run_bind_eq_ok h
    cases h
    rw [List.length_cons, ih hrest]

/-- The first of several values is read from the front. -/
theorem replicate_succ_ok {r : ByteReader ε α} {n : ℕ} {s s' : Bytes} {as : List α}
    (h : replicate r (n + 1) s = .ok (as, s')) :
    ∃ a s'', r s = .ok (a, s'') ∧ as.head? = some a := by
  obtain ⟨a, s₁, hfirst, h⟩ := run_bind_eq_ok h
  obtain ⟨rest, s₂, -, h⟩ := run_bind_eq_ok h
  cases h
  exact ⟨a, s₁, hfirst, rfl⟩

/-! ### Errors of readers -/

/-- Whatever a reader fails with satisfies `P`. -/
def Raises (P : ε → Prop) (r : ByteReader ε α) : Prop := ∀ s e, r s = .error e → P e

section Raises
variable {P : ε → Prop}

theorem raises_pure (a : α) : Raises P (pure a : ByteReader ε α) := by
  intro s e h
  cases h

theorem raises_throw {e : ε} (he : P e) : Raises P (throw e : ByteReader ε α) := by
  intro s e' h
  cases h
  exact he

theorem raises_liftM {x : Except ε α} (hx : ∀ e, x = .error e → P e) :
    Raises P (liftM x : ByteReader ε α) := by
  intro s e h
  cases x with
  | ok a => cases h
  | error e' =>
    cases h
    exact hx _ rfl

theorem raises_bind {m : ByteReader ε α} {k : α → ByteReader ε β} (hm : Raises P m)
    (hk : ∀ a, Raises P (k a)) : Raises P (m >>= k) := by
  intro s e h
  cases hrun : m s with
  | error e' =>
    rw [run_bind_error hrun] at h
    cases h
    exact hm s _ hrun
  | ok p =>
    rw [run_bind_ok hrun] at h
    exact hk p.1 p.2 e h

theorem raises_readExact {eof : ε} (heof : P eof) (n : ℕ) : Raises P (readExact eof n) := by
  intro s e h
  unfold readExact at h
  split_ifs at h
  cases h
  exact heof

theorem raises_replicate {r : ByteReader ε α} (hr : Raises P r) (n : ℕ) :
    Raises P (replicate r n) := by
  induction n with
  | zero => exact raises_pure _
  | succ n ih => exact raises_bind hr fun _ => raises_bind ih fun _ => raises_pure _

end Raises

end ByteReader
