import Dataflow.Legal.Replacement

/-!
# Canonical values

A chain that ends has no value twice, so it is no longer than the table, and following it finds the
end. When redirections lead to values of lower rank, every chain ends. The end of the chain of a value
is its canonical form. Compressing chains does not change it; redirecting a canonical value changes it
for the values that had it.
-/

namespace Dataflow.Legal.Replacements

variable {r r' : Replacements} {u v w : Value} {path : List Value}

/-- The end of the chain of a value. -/
def canon (r : Replacements) (v : Value) : Value :=
  match r.follow v with
  | .ok w => w
  | .error _ => v

theorem Reaches.eq_of_next?_eq_none (h : r.Reaches v w) (hv : r.next? v = none) : w = v := by
  cases h with
  | refl => rfl
  | step hn _ => rw [hv] at hn; cases hn

theorem Reaches.unique (h : r.Reaches u v) (h' : r.Reaches u w) (hv : r.next? v = none)
    (hw : r.next? w = none) : v = w := by
  induction h with
  | refl => exact (h'.eq_of_next?_eq_none hv).symm
  | step hn _ ih =>
    cases h' with
    | refl => rw [hw] at hn; cases hn
    | step hn' h' =>
      rw [hn] at hn'
      cases hn'
      exact ih h' hv

theorem follow_spec (h : r.follow v = .ok w) : r.Reaches v w ∧ r.next? w = none := by
  cases hchain : r.chain? r.size v with
  | none =>
    rw [follow_of_chain?_none hchain] at h
    cases h
  | some p =>
    obtain ⟨path, last⟩ := p
    rw [follow_of_chain? hchain] at h
    cases h
    exact ⟨(chain?_spec hchain).1, (chain?_spec hchain).2.1⟩

/-! ### Chains that end -/

/-- The chain of `v` ends at `w`. -/
def EndsAt (r : Replacements) (v w : Value) : Prop :=
  r.Reaches v w ∧ r.next? w = none

theorem EndsAt.step (hn : r.next? u = some v) (h : r.EndsAt v w) : r.EndsAt u w :=
  ⟨.step hn h.1, h.2⟩

/-- A value ends its own chain if it is not redirected. -/
theorem endsAt_self_iff : r.EndsAt v v ↔ r.next? v = none :=
  ⟨fun h => h.2, fun h => ⟨.refl v, h⟩⟩

theorem length_le_size (hd : path.Nodup)
    (hp : ∀ u ∈ path, (r.next? u).isSome) : path.length ≤ r.size := by
  have hsub : path ⊆ r.table.keys := fun u hu =>
    Std.TreeMap.mem_keys.2 (Std.TreeMap.isSome_getElem?_iff_mem.1 (hp u hu))
  calc path.length ≤ r.table.keys.length := hd.length_le_of_subset hsub
    _ = r.size := Std.TreeMap.length_keys

theorem EndsAt.exists_chain? (h : r.EndsAt v w) : ∃ fuel path, r.chain? fuel v = some (path, w) := by
  obtain ⟨hreaches, hw⟩ := h
  induction hreaches with
  | refl v => exact ⟨0, [], by simp [chain?, hw]⟩
  | @step u v w hn _ ih =>
    obtain ⟨fuel, path, hpath⟩ := ih hw
    exact ⟨fuel + 1, u :: path, by simp [chain?, hn, hpath]⟩

/-- A chain that ends is found within the size of the table. -/
theorem EndsAt.chain?_size (h : r.EndsAt v w) : ∃ path, r.chain? r.size v = some (path, w) := by
  obtain ⟨fuel, path, hpath⟩ := h.exists_chain?
  refine ⟨path, chain?_eq_of_length_le hpath (length_le_size (nodup_of_chain? hpath) fun u hu => ?_)⟩
  obtain ⟨x, hx, _⟩ := (chain?_spec hpath).2.2 u hu
  rw [hx]
  rfl

theorem follow_eq_ok_iff : r.follow v = .ok w ↔ r.EndsAt v w := by
  refine ⟨follow_spec, fun h => ?_⟩
  obtain ⟨path, hpath⟩ := h.chain?_size
  exact follow_of_chain? hpath

/-! ### Chains that descend -/

/-- Redirections lead to nodes of lower rank. -/
def Descends (r : Replacements) (rank : Nat → Nat) : Prop :=
  ∀ v w, r.next? v = some w → rank w.node < rank v.node

namespace Descends

variable {rank : Nat → Nat}

theorem reaches (h : r.Descends rank) (hr : r.Reaches v w) : rank w.node ≤ rank v.node := by
  induction hr with
  | refl => exact Nat.le_refl _
  | step hn _ ih => exact Nat.le_trans ih (Nat.le_of_lt (h _ _ hn))

theorem exists_endsAt (h : r.Descends rank) (v : Value) : ∃ w, r.EndsAt v w := by
  induction hn : rank v.node using Nat.strongRecOn generalizing v with
  | ind n ih =>
    cases hv : r.next? v with
    | none => exact ⟨v, endsAt_self_iff.2 hv⟩
    | some x =>
      obtain ⟨w, hw⟩ := ih (rank x.node) (hn ▸ h v x hv) x rfl
      exact ⟨w, .step hv hw⟩

theorem follow_eq (h : r.Descends rank) (v : Value) : r.follow v = .ok (r.canon v) := by
  obtain ⟨w, hw⟩ := h.exists_endsAt v
  have hfollow := follow_eq_ok_iff.2 hw
  simp only [canon, hfollow]

theorem reaches_canon (h : r.Descends rank) (v : Value) : r.Reaches v (r.canon v) :=
  (follow_spec (h.follow_eq v)).1

theorem next?_canon (h : r.Descends rank) (v : Value) : r.next? (r.canon v) = none :=
  (follow_spec (h.follow_eq v)).2

theorem canon_eq (h : r.Descends rank) (hr : r.Reaches v w) (hw : r.next? w = none) :
    r.canon v = w :=
  (h.reaches_canon v).unique hr (h.next?_canon v) hw

theorem canon_self (h : r.Descends rank) (hv : r.next? v = none) : r.canon v = v :=
  h.canon_eq (.refl v) hv

theorem canon_canon (h : r.Descends rank) (v : Value) : r.canon (r.canon v) = r.canon v :=
  h.canon_self (h.next?_canon v)

theorem rank_canon (h : r.Descends rank) (v : Value) : rank (r.canon v).node ≤ rank v.node :=
  h.reaches (h.reaches_canon v)

theorem canon_of_reaches (h : r.Descends rank) (hr : r.Reaches v w) : r.canon v = r.canon w :=
  h.canon_eq (hr.trans (h.reaches_canon w)) (h.next?_canon w)

/-- Resolving a value gives its canonical form. -/
theorem resolve_eq (h : r.Descends rank) (v : Value) :
    ∃ r', r.resolve v = .ok (r.canon v, r') ∧ r.Shortens r' := by
  obtain ⟨last, hlast⟩ := h.exists_endsAt v
  obtain ⟨path, hp⟩ := hlast.chain?_size
  have heq := resolve_of_chain? hp
  have hspec := resolve_spec heq
  rw [h.canon_eq hspec.1 hspec.2.1]
  exact ⟨_, heq, hspec.2.2⟩

/-! ### Compressed chains -/

theorem shortens (h : r.Descends rank) (hs : r.Shortens r') : r'.Descends rank := by
  intro v w hw
  obtain ⟨u, hu, hr⟩ := hs.reaches v w hw
  exact Nat.lt_of_le_of_lt (h.reaches hr) (h v u hu)

theorem canon_shortens (h : r.Descends rank) (hs : r.Shortens r') : r'.canon = r.canon := by
  funext v
  have h' := h.shortens hs
  exact (h.canon_eq (hs.reaches_of (h'.reaches_canon v))
    ((hs.next?_eq_none _).1 (h'.next?_canon v))).symm

end Descends

/-! ### New redirections -/

theorem next?_erase (r : Replacements) (v u : Value) :
    (r.erase v).2.next? u = if u = v then none else r.next? u := by
  unfold erase next?
  rw [Std.TreeMap.getElem?_erase]
  by_cases h : u = v
  · simp [h]
  · simp [h, Ne.symm h]

theorem next?_redirect (h : r.redirect v w = .ok r') (u : Value) :
    r'.next? u = if u = v then some w else r.next? u := by
  unfold redirect at h
  split at h <;> cases h
  exact next?_insert r v w u

/-- Redirecting a canonical value to another one moves every value that led to it. -/
theorem canon_redirect {rank : Nat → Nat} (h : r.Descends rank) (hw : r.next? w = none)
    (hv : r.next? v = none) (hwv : rank w.node < rank v.node)
    (hn : ∀ u, r'.next? u = if u = v then some w else r.next? u) :
    r'.Descends rank ∧ ∀ u, r'.canon u = if r.canon u = v then w else r.canon u := by
  have hne : w ≠ v := fun h => by rw [h] at hwv; omega
  have hd : r'.Descends rank := by
    intro u t ht
    rw [hn] at ht
    split at ht
    · next hu => cases ht; exact hu ▸ hwv
    · exact h u t ht
  have hw' : r'.next? w = none := by rw [hn, if_neg hne, hw]
  have keep {a b : Value} (hr : r.Reaches a b) : r'.Reaches a b := by
    induction hr with
    | refl => exact .refl _
    | @step a b c ha _ ih =>
      refine .step (v := b) ?_ ih
      rw [hn, if_neg (fun hav => by rw [hav, hv] at ha; cases ha), ha]
  refine ⟨hd, fun u => ?_⟩
  have hr := keep (h.reaches_canon u)
  split
  · next hu =>
    rw [hu] at hr
    exact hd.canon_eq (hr.trans (.step (by rw [hn, if_pos rfl]) (.refl w))) hw'
  · next hu => exact hd.canon_eq hr (by rw [hn, if_neg hu, h.next?_canon u])

end Dataflow.Legal.Replacements
