import Dataflow.Proofs.Preservation

/-!
# Runs one after another

What a run returns can be made legal for a second target. The second run keeps the meaning if lanes
are read and written at exactly the lane type. A first target with a legal vector whose lanes it
promotes builds such vectors from wider words, and a second run may take the words for the lanes.
-/

namespace Dataflow

/-- Lanes are read and written at exactly the lane type. -/
def Graph.Exact (g : Graph) : Prop :=
  ∀ (id : Nat) n, g.nodes[id]? = some n →
    ∃ ts, n.operands.map g.typeOf? = ts.map some ∧ n.Typed (fun _ _ => False) ts

variable {T : Target}

/-- Lanes that are not promoted are read and written at exactly their type. -/
theorem Signature.exact {op : Opcode} {ts : List ValueType} {t : ValueType}
    (h : Signature T.Wide op ts t) (hlanes : ∀ u ∈ t :: ts, T.classify u.scalar = .legal) :
    Signature (fun _ _ => False) op ts t := by
  have hcarries {u e t' : ValueType} (hu : u ∈ t :: ts) (hc : u.Carries (T.Wide t' u.scalar) e) :
      u.Carries False e := by
    refine hc.imp_right fun hw => ?_
    have hpromoted := hw.1.2
    rw [hlanes u hu] at hpromoted
    cases hpromoted
  cases h with
  | buildVector ht hlen hes =>
    exact .buildVector ht hlen fun e he => hcarries List.mem_cons_self (hes e he)
  | extractElement hu hc hi => exact .extractElement hu (hcarries (by simp) hc) hi
  | insertElement ht hc hi => exact .insertElement ht (hcarries List.mem_cons_self hc) hi
  | _ => constructor <;> assumption

namespace Legal

open Engine

variable {A B : Target} {limit : Limit} {g h k : Graph} {root : NodeId}

namespace Wellformed

/-- Legal vectors of legal lanes are read and written at exactly the lane type. -/
theorem exact (hg : Wellformed T limit g root)
    (hlegal : ∀ (id : Nat) n t, g.nodes[id]? = some n → t ∈ n.results → T.classify t = .legal)
    (hl : ¬ limit.liberal) (hlaned : T.Laned) : g.Exact := by
  intro id n hn
  obtain ⟨ts, hts⟩ := hg.suited id n hn
  refine ⟨ts, hts.reads, hts.typed.imp_right fun ⟨t, hres, hsig⟩ =>
    ⟨t, hres, (hsig.signature hl).exact ?_⟩⟩
  intro u hu
  rcases List.mem_cons.1 hu with rfl | hu
  · exact hlaned u (hlegal id n u hn (by simp [hres]))
  · have hmem : some u ∈ n.operands.map g.typeOf? := hts.reads ▸ List.mem_map_of_mem hu
    obtain ⟨v, _, hv⟩ := List.mem_map.1 hmem
    obtain ⟨m, hm, hslot⟩ := Option.bind_eq_some_iff.1 hv
    exact hlaned u (hlegal v.node m u hm (List.mem_of_getElem? hslot))

/-- What a run returns suits a second target, if lanes are read and written at exactly their type. -/
theorem retarget {limit' : Limit} (hg : Wellformed A limit g root) (hexact : g.Exact)
    (hlimit : limit.bound + 128 ≤ limit'.bound) (hmoderate : ¬ limit'.moderate) (B : Target) :
    Wellformed B limit' g root where
  toRooted := hg.toRooted
  built := hg.built
  suited id n hn := by
    obtain ⟨ts, hts⟩ := hg.suited id n hn
    obtain ⟨ts', hreads, htyped⟩ := hexact id n hn
    cases List.eq_of_map_some (hts.reads.symm.trans hreads)
    refine ⟨ts, hreads,
      htyped.imp_right fun ⟨t, hres, hsig⟩ => ⟨t, hres, .inl (hsig.mono fun _ _ => False.elim)⟩,
      fun _ => (hts.attributed trivial).mono fun offset t hwithin => ?_,
      fun hl => absurd hl hmoderate, False.elim⟩
    have hle := Nat.le_trans hwithin.le hlimit
    unfold Target.Within
    split <;> omega

end Wellformed

/-- Two runs one after another keep the meaning of code, if the first returns a graph in which lanes
are read and written at exactly the lane type. It always does where its target has legal lanes for
all its legal vectors. -/
theorem legalize_twice {a b : Description} (hA : a.target = .ok A) (hB : b.target = .ok B)
    {config config' : Config} {fuel fuel' : Nat} (hg : Source g root)
    (hh : legalize A config fuel g = .ok h) (hk : legalize B config' fuel' h = .ok k) :
    (A.Laned → h.Exact) ∧
    (h.Exact → ∀ args bits, g.evaluate args = .ok bits → k.evaluate args = .ok bits) := by
  have hregular := Description.target_regular hA
  have hregular' := Description.target_regular hB
  let limit : Limit := ⟨2 ^ 31 + 256, by decide, False, False⟩
  have hw : Wellformed A limit g root := hg.wellformed A (Nat.le_refl _) not_false
  obtain ⟨r, hw', hlegal, hdet⟩ := hw.legalize hregular hh
  refine ⟨hw'.exact hlegal not_false, fun hexact args bits hbits => ?_⟩
  have hv : Wellformed B (.top False) h r := hw'.retarget hexact (by decide) not_false B
  obtain ⟨r', hv', _, hdet'⟩ := hv.legalize hregular' hk
  rw [Target.loose_eq (T := A) not_false] at hdet
  rw [Target.loose_eq (T := B) not_false] at hdet'
  refine hv'.evaluate hregular' ?_
  rw [Target.loose_eq not_false]
  exact hdet' _ _ (hdet _ _ (hg.definite.determines hbits))

/-- What a run for a described target returns, if all goes well. -/
def legalizeFor? (d : Description) (g : Graph) : Option Graph := do
  let T ← d.target.toOption
  (legalize T {} 200 g).toOption

theorem legalizeFor?_eq_some {d : Description} (hl : legalizeFor? d g = some h) :
    ∃ T, d.target = .ok T ∧ legalize T {} 200 g = .ok h := by
  obtain ⟨T, hT, hl⟩ := Option.bind_eq_some_iff.1 hl
  exact ⟨T, Description.eq_ok_of_toOption hT, Description.eq_ok_of_toOption hl⟩

/-- Counts the bits of two lanes of 16 bits that are all ones. -/
def onesOfLanes : Graph :=
  ((((((Graph.empty.push { opcode := .constant, results := [.i16], attr := .imm 0 }).push
    { opcode := .constant, results := [.i16], attr := .imm 1 }).push
    { opcode := .int .sub, operands := [⟨0, 0⟩, ⟨1, 0⟩], results := [.i16] }).push
    { opcode := .buildVector, operands := [⟨2, 0⟩, ⟨2, 0⟩], results := [.v2i16] }).push
    { opcode := .count .ones, operands := [⟨3, 0⟩], results := [.v2i16] }).push
    { opcode := .output, operands := [⟨4, 0⟩], attr := .widths [32] }).setRoot 5

theorem source_onesOfLanes : Source onesOfLanes 5 := by
  have hbuilt : onesOfLanes.Built := Graph.built_of_pushAll? 5 rfl
  have hcases (id : Nat) (n : Node) (hn : onesOfLanes.nodes[id]? = some n) :
      id = 0 ∨ id = 1 ∨ id = 2 ∨ id = 3 ∨ id = 4 ∨ id = 5 := by
    have hlt : id < 6 := Graph.lt_size_of_getElem? hn
    omega
  refine ⟨⟨rfl, ⟨_, rfl, rfl, rfl⟩, fun id n hn hid => ?_⟩, hbuilt, fun id n hn => ?_⟩
  · obtain rfl | rfl | rfl | rfl | rfl | rfl := hcases id n hn
    all_goals cases hn
    iterate 5 rfl
    exact absurd rfl hid
  · obtain rfl | rfl | rfl | rfl | rfl | rfl := hcases id n hn
    all_goals cases hn
    · exact ⟨by decide, [], rfl, .inr ⟨.i16, rfl, .constant⟩, 0, rfl, by decide⟩
    · exact ⟨by decide, [], rfl, .inr ⟨.i16, rfl, .constant⟩, 1, rfl, by decide⟩
    · exact ⟨by decide, [.i16, .i16], rfl, .inr ⟨.i16, rfl, .int rfl⟩, trivial⟩
    · exact ⟨by decide, [.i16, .i16], rfl, .inr ⟨.v2i16, rfl, .buildVector rfl rfl fun e he =>
        .inl (show e = .i16 by simpa using he)⟩, trivial⟩
    · exact ⟨by decide, [.v2i16], rfl, .inr ⟨.v2i16, rfl, .count rfl⟩, trivial⟩
    · refine ⟨by decide, [.v2i16], rfl, .inl ⟨rfl, rfl⟩, fun i t width ht hw => ?_⟩
      cases i with
      | zero =>
        cases ht
        cases hw
        decide
      | succ i => cases ht

/-- A machine with registers of 16 bits. -/
def int16 : Description := ⟨"int16", [.i16], .i16⟩

/-- A machine of 16-bit registers counts each lane by itself, and so does one of 32-bit registers
after it. -/
theorem legalize_twice_onesOfLanes :
    Source onesOfLanes 5 ∧ onesOfLanes.evaluate [] = .ok (.ofNumber 32 0x100010) ∧
    ∃ A B h k, int16.target = .ok A ∧ A.Laned ∧ Target.int32.target = .ok B ∧
      legalize A {} 200 onesOfLanes = .ok h ∧ legalize B {} 200 h = .ok k ∧
      k.evaluate [] = .ok (.ofNumber 32 0x100010) := by
  have hbits : onesOfLanes.evaluate [] = .ok (.ofNumber 32 0x100010) := rfl
  have hok : (legalizeFor? int16 onesOfLanes >>= legalizeFor? Target.int32).isSome := by
    decide +kernel
  obtain ⟨k, hk⟩ := Option.isSome_iff_exists.1 hok
  obtain ⟨h, hh, hk⟩ := Option.bind_eq_some_iff.1 hk
  obtain ⟨A, hA, hh⟩ := legalizeFor?_eq_some hh
  obtain ⟨B, hB, hk⟩ := legalizeFor?_eq_some hk
  obtain ⟨A', hA', hlaned⟩ : ∃ T, int16.target = .ok T ∧ T.Laned :=
    laned_of_description fun t => by cases t <;> decide
  cases hA.symm.trans hA'
  obtain ⟨hexact, heval⟩ := legalize_twice hA hB source_onesOfLanes hh hk
  exact ⟨source_onesOfLanes, hbits, A, B, h, k, hA, hlaned, hB, hh, hk,
    heval (hexact hlaned) _ _ hbits⟩

/-- A machine with registers of 32 bits that hold one word or two lanes of 16 bits. -/
def packed32 : Description := ⟨"packed32", [.i32, .v2i16], .i32⟩

/-- A machine that promotes the lanes builds the vector from words of 32 bits, and the second run
counts the bits of these. -/
theorem legalize_twice_counts_words :
    Source onesOfLanes 5 ∧ onesOfLanes.evaluate [] = .ok (.ofNumber 32 0x100010) ∧
    ∃ A B h k, packed32.target = .ok A ∧ Target.int32.target = .ok B ∧
      legalize A {} 200 onesOfLanes = .ok h ∧ legalize B {} 200 h = .ok k ∧
      k.evaluate [] = .ok (.ofNumber 32 0x200020) := by
  have hok : (legalizeFor? packed32 onesOfLanes >>= legalizeFor? Target.int32).map
      (fun k => (k.evaluate []).toOption) = some (some (.ofNumber 32 0x200020)) := by
    decide +kernel
  obtain ⟨k, hk, heval⟩ := Option.map_eq_some_iff.1 hok
  obtain ⟨h, hh, hk⟩ := Option.bind_eq_some_iff.1 hk
  obtain ⟨A, hA, hh⟩ := legalizeFor?_eq_some hh
  obtain ⟨B, hB, hk⟩ := legalizeFor?_eq_some hk
  refine ⟨source_onesOfLanes, rfl, A, B, h, k, hA, hB, hh, hk, ?_⟩
  cases he : k.evaluate [] <;> rw [he] at heval <;> cases heval
  rfl

end Legal

end Dataflow
