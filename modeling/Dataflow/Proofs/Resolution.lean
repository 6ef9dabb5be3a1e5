import Dataflow.Proofs.Canonical

/-!
# Resolution

A table may hold anything, circles included; resolving a value finds the end of its chain exactly when
there is one. Which chains end, and where, is all that a later resolution can tell:

* compressing a chain keeps the ends of all chains;
* a redirection of a value that had none changes the ends in a way that depends on the ends alone.

So calls get the same answers whether chains are compressed or not, as long as no value is redirected
twice.
-/

namespace Dataflow.Legal.Replacements

variable {r r' s s' : Replacements} {u v w x : Value}

/-! ### Answers -/

theorem eq_cyclic_of_follow {f : Fault} (h : r.follow v = .error f) : f = .cyclic := by
  unfold follow at h
  split at h <;> cases h
  rfl

theorem follow_eq_error_iff {f : Fault} :
    r.follow v = .error f ↔ f = .cyclic ∧ ¬ ∃ w, r.EndsAt v w := by
  constructor
  · refine fun h => ⟨eq_cyclic_of_follow h, fun ⟨w, hw⟩ => ?_⟩
    rw [follow_eq_ok_iff.2 hw] at h
    cases h
  · rintro ⟨rfl, hnone⟩
    cases h : r.follow v with
    | ok w => exact absurd ⟨w, follow_eq_ok_iff.1 h⟩ hnone
    | error f => rw [eq_cyclic_of_follow h]

/-- Resolving a value gives the answer that following its chain gives. -/
theorem resolve_map_fst (r : Replacements) (v : Value) :
    (r.resolve v).map (·.1) = r.follow v := by
  unfold resolve follow
  cases r.walk? r.size v <;> rfl

/-! ### Compression -/

/-- All chains end where they end in the other table, or go on for ever in both. -/
def SameEnds (r s : Replacements) : Prop :=
  ∀ v w, r.EndsAt v w ↔ s.EndsAt v w

theorem SameEnds.refl (r : Replacements) : r.SameEnds r :=
  fun _ _ => Iff.rfl

theorem SameEnds.next?_eq_none (h : r.SameEnds s) (v : Value) :
    r.next? v = none ↔ s.next? v = none := by
  rw [← endsAt_self_iff, h, endsAt_self_iff]

theorem SameEnds.follow_eq (h : r.SameEnds s) (v : Value) : r.follow v = s.follow v := by
  cases hr : s.follow v with
  | ok w => rw [follow_eq_ok_iff, h, ← follow_eq_ok_iff, hr]
  | error f => simpa only [follow_eq_error_iff, h v] using hr

/-- Shorter ways lead every value of a chain to its end. -/
theorem Shortens.endsAt_of_reaches (hs : r.Shortens r') (h : r.EndsAt u x) (hw : r.Reaches u w) :
    r'.EndsAt w x := by
  obtain ⟨hreaches, hx⟩ := h
  induction hreaches generalizing w with
  | refl x =>
    rw [hw.eq_of_next?_eq_none hx]
    exact endsAt_self_iff.2 ((hs.next?_eq_none x).2 hx)
  | @step u t x hn _ ih =>
    cases hw with
    | step hn' hw =>
      rw [hn] at hn'
      cases hn'
      exact ih hw hx
    | refl =>
      cases hn' : r'.next? u with
      | none =>
        rw [(hs.next?_eq_none u).1 hn'] at hn
        cases hn
      | some y =>
        -- the redirection of `u` leads on along its chain
        obtain ⟨t', ht', hy⟩ := hs.reaches u y hn'
        rw [hn] at ht'
        cases ht'
        exact .step hn' (ih hy hx)

theorem Shortens.sameEnds (hs : r.Shortens r') : r'.SameEnds r := fun v w =>
  ⟨fun h => ⟨hs.reaches_of h.1, (hs.next?_eq_none w).1 h.2⟩,
    fun h => hs.endsAt_of_reaches h (.refl v)⟩

theorem resolve_sameEnds (h : r.resolve v = .ok (w, r')) : r.EndsAt v w ∧ r'.SameEnds r := by
  obtain ⟨hreaches, hw, hshort⟩ := resolve_spec h
  exact ⟨⟨hreaches, hw⟩, hshort.sameEnds⟩

/-! ### New redirections -/

/-- Chains that ended at a value go on where it is redirected to. -/
theorem endsAt_redirect (hv : r.next? v = none) (h : r.redirect v w = .ok r') (u x : Value) :
    r'.EndsAt u x ↔ x ≠ v ∧ (r.EndsAt u x ∨ r.EndsAt u v ∧ r.EndsAt w x) := by
  have hnext := next?_redirect h
  have hkeep {a b : Value} (hab : r.Reaches a b) : r'.Reaches a b := by
    induction hab with
    | refl => exact .refl _
    | @step a b c ha _ ih =>
      refine .step (v := b) ?_ ih
      rw [hnext, if_neg (fun hav => by rw [hav, hv] at ha; cases ha), ha]
  constructor
  · rintro ⟨hreaches, hx⟩
    have hxv : x ≠ v := by
      rintro rfl
      rw [hnext, if_pos rfl] at hx
      cases hx
    rw [hnext, if_neg hxv] at hx
    refine ⟨hxv, ?_⟩
    induction hreaches with
    | refl x => exact .inl (endsAt_self_iff.2 hx)
    | @step u t x hn _ ih =>
      rw [hnext] at hn
      split at hn
      · next huv =>
        cases hn
        subst huv
        exact .inr ⟨endsAt_self_iff.2 hv, (ih hx hxv).elim (·) (·.2)⟩
      · exact (ih hx hxv).imp (.step hn) fun ht => ⟨.step hn ht.1, ht.2⟩
  · rintro ⟨hxv, hends⟩
    have hx {a : Value} (ha : r.EndsAt a x) : r'.EndsAt a x :=
      ⟨hkeep ha.1, by rw [hnext, if_neg hxv, ha.2]⟩
    rcases hends with hu | ⟨hu, hw⟩
    · exact hx hu
    · exact ⟨(hkeep hu.1).trans (.step (by rw [hnext, if_pos rfl]) (hx hw).1), (hx hw).2⟩

/-- The ends of chains after a first redirection of a value depend on the ends before it. -/
theorem SameEnds.redirect (h : r.SameEnds s) (hv : r.next? v = none)
    (hr : r.redirect v w = .ok r') (hs : s.redirect v w = .ok s') : r'.SameEnds s' := by
  intro u x
  rw [endsAt_redirect hv hr, endsAt_redirect ((h.next?_eq_none v).1 hv) hs, h, h, h]

/-! ### Calls -/

/-- What is asked of a table. -/
inductive Call where
  /-- Redirects a value to another one. -/
  | record (v w : Value)
  /-- Asks for the end of the chain of a value. -/
  | resolve (v : Value)
  deriving DecidableEq, Repr

/-- The values that calls redirect. -/
def Call.sources : List Call → List Value
  | [] => []
  | .record v _ :: calls => v :: sources calls
  | .resolve _ :: calls => sources calls

/-- The answers to calls, up to the first fault. Values are looked up by `look`, which may change the
table. -/
def answers (look : Replacements → Value → Except Fault (Value × Replacements)) :
    Replacements → List Call → List (Except Fault Value)
  | _, [] => []
  | r, .record v w :: calls =>
    match r.redirect v w with
    | .ok r' => answers look r' calls
    | .error f => [.error f]
  | r, .resolve v :: calls =>
    match look r v with
    | .ok (w, r') => .ok w :: answers look r' calls
    | .error f => [.error f]

/-- Follows the chain of a value and leaves the table as it is. -/
def lookUp (r : Replacements) (v : Value) : Except Fault (Value × Replacements) :=
  (r.follow v).map (·, r)

theorem redirect_self (r : Replacements) (v : Value) : r.redirect v v = .error .selfReplacement :=
  if_pos rfl

theorem redirect_eq_ok (h : v ≠ w) : r.redirect v w = .ok ⟨r.table.insert v w⟩ :=
  if_neg h

/-- Tables whose chains have the same ends give the same answers, if no value is redirected twice. -/
theorem SameEnds.answers_eq {calls : List Call} (h : r.SameEnds s)
    (hnodup : (Call.sources calls).Nodup) (hfresh : ∀ u ∈ Call.sources calls, r.next? u = none) :
    answers resolve r calls = answers lookUp s calls := by
  induction calls generalizing r s with
  | nil => rfl
  | cons call calls ih =>
    cases call with
    | record v w =>
      obtain ⟨hv, hnodup⟩ := List.nodup_cons.1 hnodup
      by_cases hvw : v = w
      · subst hvw
        simp only [answers, redirect_self]
      · have hr := redirect_eq_ok (r := r) hvw
        have hs := redirect_eq_ok (r := s) hvw
        simp only [answers, hr, hs]
        refine ih (h.redirect (hfresh v List.mem_cons_self) hr hs) hnodup fun u hu => ?_
        have huv : u ≠ v := fun huv => hv (huv ▸ hu)
        rw [next?_redirect hr, if_neg huv]
        exact hfresh u (List.mem_cons_of_mem v hu)
    | resolve v =>
      have hlook := (resolve_map_fst r v).trans (h.follow_eq v)
      cases hr : r.resolve v with
      | error f =>
        rw [hr] at hlook
        simp only [answers, hr, lookUp, ← hlook, Except.map]
      | ok p =>
        obtain ⟨w, r'⟩ := p
        rw [hr] at hlook
        simp only [answers, hr, lookUp, ← hlook, Except.map]
        have hends := (resolve_sameEnds hr).2
        rw [ih (fun u x => (hends u x).trans (h u x)) hnodup fun u hu =>
          (hends.next?_eq_none u).2 (hfresh u hu)]

/-- Path compression does not show. Resolving a value fails exactly when its chain does not end.
Otherwise it gives the end of the chain and keeps which values are redirected and where all chains
end, so that every value resolves as before. Calls that redirect each value at most once get the
answers of a table that is never compressed. -/
theorem resolve_transparent (r : Replacements) (v : Value) :
    ((∃ f, r.resolve v = .error f) ↔ ¬ ∃ w, r.EndsAt v w) ∧
    (∀ w r', r.resolve v = .ok (w, r') →
      r.EndsAt v w ∧ (∀ u, r'.next? u = none ↔ r.next? u = none) ∧
      (∀ u x, r'.EndsAt u x ↔ r.EndsAt u x) ∧ r'.resolve w = .ok (w, r') ∧
      ∀ u, (r'.resolve u).map (·.1) = (r.resolve u).map (·.1)) ∧
    ∀ calls, (Call.sources calls).Nodup → (∀ u ∈ Call.sources calls, r.next? u = none) →
      answers resolve r calls = answers lookUp r calls := by
  refine ⟨?_, fun w r' h => ?_, fun calls hnodup hfresh =>
    SameEnds.answers_eq (.refl r) hnodup hfresh⟩
  · have hfollow := resolve_map_fst r v
    constructor
    · rintro ⟨f, hf⟩
      rw [hf] at hfollow
      exact (follow_eq_error_iff.1 hfollow.symm).2
    · intro hnone
      rw [follow_eq_error_iff.2 ⟨rfl, hnone⟩] at hfollow
      cases hr : r.resolve v with
      | error f => exact ⟨f, rfl⟩
      | ok p =>
        rw [hr] at hfollow
        cases hfollow
  · obtain ⟨hends, hsame⟩ := resolve_sameEnds h
    have hw : r'.next? w = none := (hsame.next?_eq_none w).2 hends.2
    refine ⟨hends, hsame.next?_eq_none, hsame, ?_, fun u => ?_⟩
    · obtain ⟨path, hpath⟩ := (endsAt_self_iff.2 hw).chain?_size
      rcases chain?_cases hpath with ⟨_, rfl, _⟩ | ⟨_, _, _, _, hnext, _⟩
      · exact resolve_of_chain? hpath
      · rw [hw] at hnext
        cases hnext
    · rw [resolve_map_fst, resolve_map_fst, hsame.follow_eq]

/-- A chain of two redirections. -/
def twoSteps : Replacements :=
  ⟨(∅ : Std.TreeMap Value Value).insert ⟨0, 0⟩ ⟨1, 0⟩ |>.insert ⟨1, 0⟩ ⟨2, 0⟩⟩

/-- The chain is compressed, and its end is redirected after that. -/
theorem resolve_transparent_twoSteps :
    (∃ r', twoSteps.resolve ⟨0, 0⟩ = .ok (⟨2, 0⟩, r') ∧ r'.next? ⟨0, 0⟩ = some ⟨2, 0⟩ ∧
      ∀ u x, r'.EndsAt u x ↔ twoSteps.EndsAt u x) ∧
    answers resolve twoSteps [.resolve ⟨0, 0⟩, .record ⟨2, 0⟩ ⟨3, 0⟩, .resolve ⟨0, 0⟩,
      .record ⟨3, 0⟩ ⟨1, 0⟩, .resolve ⟨0, 0⟩] = [.ok ⟨2, 0⟩, .ok ⟨3, 0⟩, .error .cyclic] := by
  obtain ⟨_, hok, hcalls⟩ := resolve_transparent twoSteps ⟨0, 0⟩
  refine ⟨⟨_, rfl, rfl, (hok _ _ rfl).2.2.1⟩, ?_⟩
  exact (hcalls _ (by decide) (by decide)).trans rfl

end Dataflow.Legal.Replacements
