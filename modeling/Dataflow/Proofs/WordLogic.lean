import Dataflow.Legal.Resize
import Dataflow.Proofs.Burden
import Dataflow.Proofs.Words

/-!
# A logic of words

Rules that compute with words are the same wherever they run. A logic of words is what such a rule
can rely on: a judgement on edits that chains, and what each request for a word gives. What follows
from these alone is proved once and holds in every such logic.
-/

namespace Dataflow

/-- Numbers up to the width of a type are words of it. -/
theorem ValueType.width_mod {n : Nat} {t : ValueType} (h : n ≤ t.bits) : n % 2 ^ t.bits = n :=
  Nat.mod_eq_of_lt (Nat.lt_of_le_of_lt h Nat.lt_two_pow_self)

namespace Legal

/-- The words of `m` bits that extend a word of `n` bits in a given way. -/
def Fill.Fills (fill : Fill) (n m x y : Nat) : Prop :=
  match fill with
  | .zero => y = x
  | .sign => y = Word.extend n m x
  | .any => y % 2 ^ n = x

theorem Fill.fills_self {fill : Fill} {n x : Nat} (hx : x < 2 ^ n) : fill.Fills n n x x := by
  cases fill with
  | zero => rfl
  | sign => exact (Word.extend_self n x).symm
  | any => exact Nat.mod_eq_of_lt hx

structure WordLogic where
  /-- Values have data. -/
  sem : Prop
  /-- The results of an edit satisfy a property. -/
  Meets {α : Type} : Edit α → (α → Prop) → Prop
  /-- A value of a scalar type has the given bits. -/
  Is : Value → ValueType → Nat → Prop
  /-- Operations up to a stage may work at a scalar integer type. -/
  Works : Nat → ValueType → Prop
  /-- Comparisons may have results of a type. -/
  Flag : ValueType → Prop
  /-- High halves of products may be taken at a type. -/
  Product : ValueType → Prop
  bind {α β : Type} {x : Edit α} {f : α → Edit β} {P : α → Prop} {Q : β → Prop} :
    Meets x P → (∀ a, P a → Meets (f a) Q) → Meets (x >>= f) Q
  mono {α : Type} {x : Edit α} {P Q : α → Prop} : Meets x P → (∀ a, P a → Q a) → Meets x Q
  pure {α : Type} {a : α} {P : α → Prop} : P a → Meets (Pure.pure a) P
  isWord {s : Nat} {t : ValueType} : Works s t → t.IsWord
  works_mono {s s' : Nat} {t : ValueType} : Works s t → s' ≤ s → Works s' t
  works_flag {s : Nat} {t : ValueType} : Flag t → Works s t
  lt {v : Value} {t : ValueType} {x : Nat} : Is v t x → sem → x < 2 ^ t.bits
  congr {v : Value} {t : ValueType} {x y : Nat} : Is v t x → (sem → x = y) → Is v t y
  typeOf {v : Value} {t : ValueType} {x : Nat} : Is v t x → Meets (Edit.typeOf v) (· = t)
  constant {s : Nat} {t : ValueType} : Works s t → ∀ bits,
    Meets (Edit.constant bits t) fun v => Is v t (bits % 2 ^ t.bits)
  intOf {s : Nat} {t : ValueType} {op : IntOp} {a b : Value} {x y : Nat} : Works s t →
    (Opcode.int op).stage ≤ s → (op = .mulhu → Product t) → Is a t x → Is b t y →
    Meets (Edit.int op a b) fun v => Is v t (Word.value op t.bits x y)
  count {s : Nat} {t : ValueType} {a : Value} {x : Nat} : Works s t → ∀ op : BitCount, Is a t x →
    Meets (Edit.unary (.count op) a) fun v => Is v t (Word.count op t.bits x)
  setcc {s : Nat} {t u : ValueType} {a b : Value} {x y : Nat} : Flag t → Works s u → ∀ c : Condition,
    Is a u x → Is b u y → Meets (Edit.setcc a b c t) fun v => Is v t (c.test u.bits x y).toNat
  select {s : Nat} {t u : ValueType} {c a b : Value} {k x y : Nat} : Works s u → Works s t →
    Is c u k → Is a t x → Is b t y →
    Meets (Edit.select c a b) fun v => Is v t (if k ≠ 0 then x else y)
  truncate {s : Nat} {t u : ValueType} {a : Value} {x : Nat} : Works s u → Works s t →
    t.bits < u.bits → Is a u x → 1 ≤ s →
    Meets (Edit.cast .truncate a t) fun v => Is v t (x % 2 ^ t.bits)
  zeroExtend {s : Nat} {t u : ValueType} {a : Value} {x : Nat} : Works s u → Works s t →
    u.bits < t.bits → Is a u x → Meets (Edit.cast .zeroExtend a t) fun v => Is v t (x % 2 ^ t.bits)
  signExtend {s : Nat} {t u : ValueType} {a : Value} {x : Nat} : Works s u → Works s t →
    u.bits < t.bits → Is a u x →
    Meets (Edit.cast .signExtend a t) fun v => Is v t (Word.extend u.bits t.bits x)
  anyExtend {s : Nat} {t u : ValueType} {a : Value} {x : Nat} : Works s u → Works s t →
    u.bits < t.bits → Is a u x → Meets (Edit.cast .anyExtend a t) fun v =>
      ∃ y, Is v t y ∧ (sem → y % 2 ^ u.bits = x)

namespace WordLogic

variable {L : WordLogic} {α β : Type} {v a b : Value} {t u : ValueType} {x y n s : Nat}

namespace Meets

theorem bind {x : Edit α} {f : α → Edit β} {P : α → Prop} {Q : β → Prop} (hx : L.Meets x P)
    (hf : ∀ a, P a → L.Meets (f a) Q) : L.Meets (x >>= f) Q :=
  L.bind hx hf

theorem mono {x : Edit α} {P Q : α → Prop} (hx : L.Meets x P) (h : ∀ a, P a → Q a) :
    L.Meets x Q :=
  L.mono hx h

theorem pure {a : α} {P : α → Prop} (h : P a) : L.Meets (Pure.pure a) P :=
  L.pure h

/-- The type of a value is no news. -/
theorem typeOf_bind {f : ValueType → Edit α} {Q : α → Prop} (h : L.Is a t x)
    (hf : L.Meets (f t) Q) : L.Meets (Edit.typeOf a >>= f) Q := by
  refine .bind (L.typeOf h) ?_
  rintro _ rfl
  exact hf

end Meets

theorem int (ht : L.Works s t) (op : IntOp) (ha : L.Is a t x) (hb : L.Is b t y)
    (hop : (Opcode.int op).stage ≤ s ∧ op ≠ .mulhu) :
    L.Meets (Edit.int op a b) fun v => L.Is v t (Word.value op t.bits x y) :=
  L.intOf ht hop.1 (fun h => absurd h hop.2) ha hb

/-! ### Changes of width -/

theorem clearAbove (ht : L.Works s t) (hu : u.IsWord) (h : L.Is v t x) :
    L.Meets (Edit.clearAbove v u) fun w => L.Is w t (x % 2 ^ u.bits) := by
  refine .typeOf_bind h ?_
  split
  · next hle =>
    refine .pure (L.congr h fun hs => ?_)
    rw [Nat.mod_eq_of_lt (Nat.lt_of_lt_of_le (L.lt h hs) (Nat.pow_le_pow_right (by decide) hle))]
  · next hlt =>
    refine .bind (L.constant ht _) fun mask hmask => ?_
    refine (int ht .and h hmask ⟨Nat.zero_le s, by decide⟩).mono fun w hw => L.congr hw fun _ => ?_
    have hle : 2 ^ u.bits ≤ 2 ^ t.bits := Nat.pow_le_pow_right (by decide) (by omega)
    have hpos := Nat.two_pow_pos u.bits
    rw [Word.mask_eq hu.bits_le, Nat.mod_eq_of_lt (a := 2 ^ u.bits - 1) (by omega), Word.value,
      Nat.and_two_pow_sub_one_eq_mod]

/-- An extension of a word of `n` bits, resized in the same way, is one again. -/
theorem resize (fill : Fill) (hu : L.Works 1 u) (ht : L.Works 1 t) (hn : 0 < n) (hnu : n ≤ u.bits)
    (hnt : n ≤ t.bits) (h : L.Is v u y) (hy : L.sem → x < 2 ^ n ∧ fill.Fills n u.bits x y) :
    L.Meets (Edit.resize fill v t) fun w =>
      ∃ z, L.Is w t z ∧ (L.sem → fill.Fills n t.bits x z) := by
  have hle : 2 ^ n ≤ 2 ^ t.bits := Nat.pow_le_pow_right (by decide) hnt
  refine .typeOf_bind h ?_
  split
  · next heq =>
    cases heq
    exact .pure ⟨y, h, fun hs => (hy hs).2⟩
  split
  · next hlt =>
    cases fill with
    | zero =>
      refine (L.zeroExtend hu ht hlt h).mono fun w hw => ⟨_, hw, fun hs => ?_⟩
      obtain ⟨hx, hfills⟩ := hy hs
      cases hfills
      exact Nat.mod_eq_of_lt (by omega)
    | sign =>
      refine (L.signExtend hu ht hlt h).mono fun w hw => ⟨_, hw, fun hs => ?_⟩
      obtain ⟨hx, hfills⟩ := hy hs
      cases hfills
      exact Word.extend_extend hn hnu (Nat.le_of_lt hlt) hx
    | any =>
      refine (L.anyExtend hu ht hlt h).mono ?_
      rintro w ⟨z, hw, hz⟩
      refine ⟨z, hw, fun hs => ?_⟩
      show z % 2 ^ n = x
      rw [← (hy hs).2, ← hz hs, Nat.mod_mod_of_dvd _ (Nat.pow_dvd_pow 2 hnu)]
  · next hne hnlt =>
    have hlt : t.bits < u.bits := Nat.lt_of_le_of_ne (Nat.le_of_not_lt hnlt) fun heq =>
      hne ((L.isWord hu).eq_of_bits_eq (L.isWord ht) heq.symm)
    refine (L.truncate hu ht hlt h (Nat.le_refl 1)).mono fun w hw => ⟨_, hw, fun hs => ?_⟩
    obtain ⟨hx, hfills⟩ := hy hs
    cases fill with
    | zero =>
      cases hfills
      exact Nat.mod_eq_of_lt (by omega)
    | sign =>
      cases hfills
      exact Word.extend_mod hnt (Nat.le_of_lt hlt) hx
    | any =>
      show y % 2 ^ t.bits % 2 ^ n = x
      rw [Nat.mod_mod_of_dvd _ (Nat.pow_dvd_pow 2 hnt)]
      exact hfills

/-- Zeros and ones keep their value at any width. -/
theorem resizeFlag (hu : L.Works 1 u) (ht : L.Works 1 t) (b : Bool) (h : L.Is v u b.toNat) :
    L.Meets (Edit.resize .zero v t) fun w => L.Is w t b.toNat := by
  refine (resize .zero hu ht (n := 1) Nat.one_pos u.bits_pos t.bits_pos h fun _ =>
    ⟨b.toNat_lt, rfl⟩).mono ?_
  rintro w ⟨z, hw, hz⟩
  exact L.congr hw fun hs => by rw [hz hs]

end WordLogic

end Legal

end Dataflow
