import Dataflow.Eval
import Dataflow.Proofs.Data
import Mathlib.Algebra.Order.Floor.Div
import Mathlib.Algebra.Ring.Nat
import Mathlib.GroupTheory.GroupAction.Ring

/-!
# Reading back what was written

Decoding undoes encoding. Words are read back at the sum of the widths before them, data at the place
where they are laid out, and a bit string of the size of a type is the layout of what is read from it.
So two bitcasts that lead back to the first type change nothing.
-/

namespace Dataflow

/-- `f` applied to every lane. -/
def Datum.map (f : Nat → Nat) : Datum → Datum
  | scalar bits => scalar (f bits)
  | vector lanes => vector (lanes.map f)

namespace Datum

variable {t : ValueType} {d : Datum} {l : List Nat}

theorem lanes_map (f : Nat → Nat) (d : Datum) : (d.map f).lanes = d.lanes.map f := by
  cases d <;> rfl

/-- A datum of the form of a type keeps it when its lanes change. -/
theorem ofLanes_map (f : Nat → Nat) (h : ofLanes t d.lanes = .ok d) :
    ofLanes t (d.map f).lanes = .ok (d.map f) := by
  unfold ofLanes at h ⊢
  cases d with
  | scalar bits =>
    split at h
    · cases h
    · next ht => rw [if_neg ht]; rfl
  | vector lanes =>
    split at h
    · next ht => rw [if_pos ht]; rfl
    · split at h <;> cases h

theorem exists_ofLanes (h : l.length = t.laneCount) : ∃ d, ofLanes t l = .ok d ∧ d.lanes = l := by
  cases ht : t.isVector with
  | true => exact ⟨vector l, ofLanes_vector ht l, rfl⟩
  | false =>
    rw [ValueType.laneCount_eq_one ht] at h
    obtain ⟨x, rfl⟩ := List.length_eq_one_iff.1 h
    exact ⟨scalar x, ofLanes_scalar ht x, rfl⟩

end Datum

namespace BitString

variable {t u : ValueType} {d : Datum} {s s' : BitString} {a w : Nat}

/-! ### Bits of words -/

theorem testBit_number (l : List Bool) (j : Nat) : (number l).testBit j = l.getD j false := by
  induction l generalizing j with
  | nil => simp [number]
  | cons b l ih =>
    cases j with
    | zero => cases b <;> simp [number]
    | succ j =>
      have hhalf : (b.toNat + 2 * number l) / 2 = number l := by
        have := Bool.toNat_le b
        omega
      rw [number, Nat.testBit_succ, hhalf, ih, List.getD_cons_succ]

/-- The bits of the word that a part of a list gives; there are none past the end. -/
theorem testBit_number_take_drop (l : List Bool) (offset width j : Nat) :
    (number ((l.drop offset).take width)).testBit j =
      (decide (j < width) && l.getD (offset + j) false) := by
  rw [testBit_number]
  simp only [List.getD_eq_getElem?_getD, List.getElem?_take, List.getElem?_drop]
  by_cases h : j < width <;> simp [h]

theorem read_eq_ok (s : BitString) {offset width : Nat} (h : offset + width ≤ 2 ^ 32) :
    s.read offset width = .ok (number ((s.bits.drop offset).take (min width 128))) :=
  if_pos (.inr (Nat.le_trans (Nat.add_le_add_left (Nat.min_le_left ..) _) h))

theorem take_ofWord (w a : Nat) : (ofWord w a).bits.take (min w 128) = (ofNumber (min w 128) a).bits := by
  simp only [ofWord, ofNumber, ← List.map_take, List.take_range, Nat.min_eq_left (Nat.min_le_left ..)]
  refine List.map_congr_left fun i hi => ?_
  have hlt : i < Word.maxBits := Nat.lt_of_lt_of_le (List.mem_range.1 hi) (Nat.min_le_right ..)
  simp [hlt]

theorem length_ofWord (w a : Nat) : (ofWord w a).length = w := by
  simp [ofWord, length]

theorem length_append (s s' : BitString) : (s ++ s').length = s.length + s'.length :=
  List.length_append

/-- A word that stands between other bits. -/
theorem read_ofWord (h : s.length + w ≤ 2 ^ 32) :
    (s ++ ofWord w a ++ s').read s.length w = .ok (a % 2 ^ min w 128) := by
  have hbits : (s ++ ofWord w a ++ s').bits = s.bits ++ ((ofWord w a).bits ++ s'.bits) :=
    List.append_assoc ..
  have hle : min w 128 ≤ (ofWord w a).bits.length := by
    rw [← length, length_ofWord]
    exact Nat.min_le_left ..
  rw [read_eq_ok _ h, hbits, length, List.drop_left, List.take_append_of_le_length hle, take_ofWord,
    number_ofNumber]

/-! ### Words one after the other -/

/-- Pushes words, each given with its width. -/
def pushAll (s : BitString) (words : List (Nat × Nat)) : BitString :=
  words.foldl (fun s p => s.push p.1 p.2) s

theorem pushAll_append (s : BitString) (ps qs : List (Nat × Nat)) :
    s.pushAll (ps ++ qs) = (s.pushAll ps).pushAll qs :=
  List.foldl_append

theorem length_pushAll (s : BitString) (ps : List (Nat × Nat)) :
    (s.pushAll ps).length = s.length + (ps.map (·.2)).sum := by
  induction ps generalizing s with
  | nil => rfl
  | cons p ps ih =>
    show ((s.push p.1 p.2).pushAll ps).length = _
    rw [ih, push, length_append, length_ofWord, List.map_cons, List.sum_cons, Nat.add_assoc]

/-- Words are pushed behind the bits that are there. -/
theorem exists_pushAll_eq (s : BitString) (ps : List (Nat × Nat)) :
    ∃ s', s.pushAll ps = s ++ s' := by
  induction ps generalizing s with
  | nil => exact ⟨empty, (append_empty s).symm⟩
  | cons p ps ih =>
    obtain ⟨s', hs'⟩ := ih (s.push p.1 p.2)
    exact ⟨ofWord p.2 p.1 ++ s', hs'.trans (append_assoc ..)⟩

/-- Every word is read back at the sum of the widths before it. -/
theorem read_pushAll {ps : List (Nat × Nat)} (h : (ps.map (·.2)).sum ≤ 2 ^ 32) {i : Nat}
    (hi : ps[i]? = some (a, w)) :
    (empty.pushAll ps).read ((ps.take i).map (·.2)).sum w = .ok (a % 2 ^ min w 128) := by
  obtain ⟨hlt, hget⟩ := List.getElem?_eq_some_iff.1 hi
  have hsplit : ps = ps.take i ++ (a, w) :: ps.drop (i + 1) := by
    rw [← hget, List.getElem_cons_drop, List.take_append_drop]
  have hlen := length_pushAll empty (ps.take i)
  rw [show empty.length = 0 from rfl, Nat.zero_add] at hlen
  obtain ⟨s', hs'⟩ := exists_pushAll_eq ((empty.pushAll (ps.take i)).push a w) (ps.drop (i + 1))
  have hwhole : empty.pushAll ps = empty.pushAll (ps.take i) ++ ofWord w a ++ s' := by
    conv_lhs => rw [hsplit]
    rw [pushAll_append]
    exact hs'
  have hsum : ((ps.take i).map (·.2)).sum + w ≤ 2 ^ 32 := by
    rw [hsplit, List.map_append, List.sum_append, List.map_cons, List.sum_cons] at h
    omega
  rw [hwhole, ← hlen]
  exact read_ofWord (hlen ▸ hsum)

/-! ### Data -/

/-- The layout of a datum shows the low bits of its lanes. -/
theorem ofDatum_congr {e : Datum} (h : e.lanes = d.lanes.map (· % 2 ^ t.laneBits)) :
    ofDatum e t = ofDatum d t := by
  have hpush (s : BitString) (x : Nat) :
      s.push (x % 2 ^ t.laneBits) t.laneBits = s.push x t.laneBits := by
    rw [push, push, ofWord_eq t.laneBits_le, ofWord_eq t.laneBits_le,
      ofNumber_congr (Nat.mod_mod x _)]
  rw [ofDatum, pushDatum, h, List.foldl_map]
  simp only [hpush]
  rfl

/-- A datum that is laid out between other bits is read back with its lanes cut to their width. -/
theorem readDatum_append (hd : d.lanes.length = t.laneCount) (h : s.length + t.bits ≤ 2 ^ 32) :
    (s ++ ofDatum d t ++ s').readDatum s.length t =
      Datum.ofLanes t (d.lanes.map (· % 2 ^ t.laneBits)) := by
  obtain ⟨e, he, hlanes⟩ := Datum.exists_ofLanes (t := t) (l := d.lanes.map (· % 2 ^ t.laneBits))
    (by rw [List.length_map, hd])
  have hfits : e.Fits t := by
    refine ⟨hlanes ▸ he, by rw [hlanes, List.length_map, hd], fun x hx => ?_⟩
    rw [hlanes] at hx
    obtain ⟨y, -, rfl⟩ := List.mem_map.1 hx
    exact Nat.mod_lt _ (Nat.two_pow_pos _)
  have hnumber : number (s ++ ofDatum d t ++ s').bits / 2 ^ s.length =
      e.number t + 2 ^ t.bits * number s'.bits := by
    have hbits : (s ++ ofDatum d t ++ s').bits =
        s.bits ++ ((ofNumber t.bits (e.number t)).bits ++ s'.bits) := by
      rw [← ofDatum_congr hlanes, ofDatum_eq hfits]
      exact List.append_assoc ..
    rw [hbits, number_append, number_append, length, Nat.add_mul_div_left _ _ (Nat.two_pow_pos _),
      Nat.div_eq_of_lt (number_lt _), Nat.zero_add, number_ofNumber, length_ofNumber,
      Nat.mod_eq_of_lt hfits.number_lt]
  rw [readDatum_eq _ h, hnumber, he, ← Datum.ofNumber_mod, Nat.add_mul_mod_self_left,
    Datum.ofNumber_mod, hfits.ofNumber_number]

/-- A bit string as long as a type is the layout of what is read from it. -/
theorem exists_readDatum (h : s.length = t.bits) :
    ∃ d, s.readDatum 0 t = .ok d ∧ ofDatum d t = s := by
  have hle := t.bits_le
  refine ⟨_, readDatum_eq s (by omega), ?_⟩
  rw [ofDatum_eq (Datum.fits_ofNumber t _), Datum.number_ofNumber, Nat.pow_zero, Nat.div_one]
  refine (eq_ofNumber h ?_).symm
  rw [Nat.mod_mod, Nat.mod_eq_of_lt]
  exact h ▸ number_lt s.bits

theorem getElem?_words {k word : Nat} (h : s.words[k]? = some word) :
    word = number ((s.bits.drop (64 * k)).take 64) := by
  rw [words, List.getElem?_map] at h
  obtain ⟨i, hi, rfl⟩ := Option.map_eq_some_iff.1 h
  obtain ⟨_, rfl⟩ := List.getElem?_eq_some_iff.1 hi
  rw [List.getElem_range]

end BitString

/-- Every bitcast from `t` to `u` makes `e` of `d`. -/
def Eval.Bitcasts (t u : ValueType) (d e : Datum) : Prop :=
  ∀ (args : Array BitString) (n : Node) (operand : Nat → Except EvalError Datum)
    (operandType : Nat → Except Fault ValueType), n.opcode = .bitcast → operand 0 = .ok d →
    operandType 0 = .ok t → Eval.compute args n u operand operandType = .ok e

/-- A bitcast reads the layout of its operand at the type of its result. -/
theorem Eval.bitcasts_of_readDatum {t u : ValueType} {d e : Datum}
    (h : (BitString.ofDatum d t).readDatum 0 u = .ok e) : Eval.Bitcasts t u d e := by
  intro args n operand operandType hn hd ht
  simp only [Eval.compute, hn, hd, ht, ok_bind, liftM_ok, h]

namespace BitString

/-- Decoding undoes encoding: of words pushed at any widths, of data laid out anywhere, of bit strings
as long as a type, and so of bitcasts; bits past the end are zeros, also in the last word. -/
theorem layout_exact :
    (∀ pushes : List (Nat × Nat), (pushes.map (·.2)).sum < 2 ^ 32 →
      ∀ i a w, pushes[i]? = some (a, w) →
        (empty.pushAll pushes).read ((pushes.take i).map (·.2)).sum w = .ok (a % 2 ^ min w 128)) ∧
    (∀ (s : BitString) offset width, offset + width < 2 ^ 32 →
      ∃ a, s.read offset width = .ok a ∧
        ∀ j, a.testBit j = (decide (j < min width 128) && s.bits.getD (offset + j) false)) ∧
    (∀ (t : ValueType) (d : Datum), d.lanes.length = t.laneCount →
      ∃ e, (ofDatum d t).readDatum 0 t = .ok e ∧ e.lanes = d.lanes.map (· % 2 ^ t.laneBits) ∧
        (Datum.ofLanes t d.lanes = .ok d → e = d.map (· % 2 ^ t.laneBits)) ∧
        ∀ before after : BitString, before.length + t.bits ≤ 2 ^ 32 →
          (before ++ ofDatum d t ++ after).readDatum before.length t = .ok e) ∧
    (∀ (u : ValueType) (s : BitString), s.length = u.bits →
      ∃ d, s.readDatum 0 u = .ok d ∧ ofDatum d u = s) ∧
    (∀ t u : ValueType, t.bits = u.bits → ∀ d : Datum, d.Fits t →
      ∃ e, e.Fits u ∧ Eval.Bitcasts t u d e ∧ Eval.Bitcasts u t e d) ∧
    ∀ s : BitString, s.words.length = s.length ⌈/⌉ 64 ∧
      ∀ k word, s.words[k]? = some word → word < 2 ^ 64 ∧
        ∀ j < 64, word.testBit j = s.bits.getD (64 * k + j) false := by
  refine ⟨fun pushes h i a w hi => read_pushAll (Nat.le_of_lt h) hi, fun s offset width h => ?_,
    fun t d hd => ?_, fun u s => exists_readDatum, fun t u htu d hd => ?_,
    fun s => ⟨?_, fun k word h => ?_⟩⟩
  · exact ⟨_, read_eq_ok s (Nat.le_of_lt h), testBit_number_take_drop s.bits offset _⟩
  · obtain ⟨e, he, hlanes⟩ := Datum.exists_ofLanes (t := t) (l := d.lanes.map (· % 2 ^ t.laneBits))
      (by rw [List.length_map, hd])
    have hread (before after : BitString) (h : before.length + t.bits ≤ 2 ^ 32) :
        (before ++ ofDatum d t ++ after).readDatum before.length t = .ok e :=
      (readDatum_append hd h).trans he
    refine ⟨e, ?_, hlanes, fun hform => ?_, hread⟩
    · have hle := t.bits_le
      have hempty := hread empty empty (by rw [show empty.length = 0 from rfl]; omega)
      rwa [append_empty, empty_append] at hempty
    · have hmap := Datum.ofLanes_map (· % 2 ^ t.laneBits) hform
      rw [Datum.lanes_map, he] at hmap
      exact Except.ok.inj hmap
  · -- both ways, the datum read has the number of the one written
    have hback := readDatum_ofDatum (Datum.fits_ofNumber u (d.number t)) htu.symm
    rw [Datum.number_ofNumber, ← htu, Nat.mod_eq_of_lt hd.number_lt, hd.ofNumber_number] at hback
    exact ⟨_, Datum.fits_ofNumber u _, Eval.bitcasts_of_readDatum (readDatum_ofDatum hd htu),
      Eval.bitcasts_of_readDatum hback⟩
  · rw [words, List.length_map, List.length_range, Nat.ceilDiv_eq_add_pred_div]
    rfl
  · rw [getElem?_words h]
    refine ⟨Nat.lt_of_lt_of_le (number_lt _) (Nat.pow_le_pow_right (by decide)
      (List.length_take_le ..)), fun j hj => ?_⟩
    rw [testBit_number_take_drop, decide_eq_true hj, Bool.true_and]

/-- Words of which one is wider than a word can be, a vector at an odd offset with a lane that is too
wide, and its bits as one number. -/
theorem layout_exact_unaligned :
    (empty.pushAll [(5, 3), (2 ^ 128 - 2, 130), (25, 4)]).read 3 130 = .ok (2 ^ 128 - 2) ∧
    (empty.pushAll [(5, 3), (2 ^ 128 - 2, 130), (25, 4)]).read 133 4 = .ok 9 ∧
    (∃ a, (ofWord 3 5).read 2 200 = .ok a ∧ a.testBit 0 = true ∧ a.testBit 1 = false) ∧
    (ofWord 3 5 ++ ofDatum (.vector [0x1ff, 2]) .v2i8 ++ ofWord 1 1).readDatum 3 .v2i8 =
      .ok (.vector [0xff, 2]) ∧
    (∃ d, (ofWord 16 0x1234).readDatum 0 .v2i8 = .ok d ∧ ofDatum d .v2i8 = ofWord 16 0x1234) ∧
    (∃ e, e.Fits .i16 ∧ Eval.Bitcasts .v2i8 .i16 (.vector [1, 2]) e ∧
      Eval.Bitcasts .i16 .v2i8 e (.vector [1, 2])) ∧
    ∀ word, (ofWord 65 (2 ^ 64)).words[1]? = some word → word.testBit 0 = true := by
  obtain ⟨hpush, hread, hdatum, hback, hcast, hwords⟩ := layout_exact
  have hthree := hpush [(5, 3), (2 ^ 128 - 2, 130), (25, 4)] (by decide)
  refine ⟨hthree 1 _ _ rfl, hthree 2 _ _ rfl, ?_, ?_, hback _ _ rfl,
    hcast .v2i8 .i16 rfl (.vector [1, 2]) (Datum.fits_vector.2 (by decide)), fun word h => ?_⟩
  · obtain ⟨a, ha, hbit⟩ := hread (ofWord 3 5) 2 200 (by decide)
    exact ⟨a, ha, (hbit 0).trans (by decide), (hbit 1).trans (by decide)⟩
  · obtain ⟨e, _, _, hmap, hat⟩ := hdatum .v2i8 (.vector [0x1ff, 2]) rfl
    rw [hmap rfl] at hat
    exact hat (ofWord 3 5) (ofWord 1 1) (by decide)
  · exact (((hwords _).2 1 word h).2 0 (by decide)).trans (by decide)

end BitString

end Dataflow
