import Dataflow.Node
import Std.Data.TreeMap

/-!
# Replacements

A value that was replaced keeps its node; the table redirects it, and readers follow redirections
to their end. Following a chain points everything on it straight at the end.
-/

namespace Dataflow.Legal

structure Replacements where
  table : Std.TreeMap Value Value := ∅
  deriving Inhabited

namespace Replacements

def size (r : Replacements) : Nat :=
  r.table.size

/-- Where a value is redirected to. -/
def next? (r : Replacements) (v : Value) : Option Value :=
  r.table[v]?

/-- The number of redirections from `v` on and the value at the end of them, when there are at most
`fuel`. -/
def walk? (r : Replacements) : Nat → Value → Option (Nat × Value)
  | 0, v => if (r.next? v).isNone then some (0, v) else none
  | fuel + 1, v =>
    match r.next? v with
    | none => some (0, v)
    | some w => (walk? r fuel w).map fun (steps, last) => (steps + 1, last)

/-- The end of the chain of `v`. A chain longer than the table runs in a circle. -/
def follow (r : Replacements) (v : Value) : Except Fault Value :=
  match r.walk? r.size v with
  | some (_, last) => .ok last
  | none => .error .cyclic

/-- Walks from `v` on once more and points every value on the way at `last`. Each redirection is
read as it is overwritten; the walk is over at `last`, or behind a value that had none. -/
def compress (r : Replacements) (last : Value) : Nat → Value → Replacements
  | 0, _ => r
  | fuel + 1, v =>
    if v = last then r
    else
      match r.next? v with
      | some w => compress ⟨r.table.insert v last⟩ last fuel w
      | none => ⟨r.table.insert v last⟩

/-- The end of the chain of `v`; a chain of more than one redirection is compressed. -/
def resolve (r : Replacements) (v : Value) : Except Fault (Value × Replacements) :=
  match r.walk? r.size v with
  | some (steps, last) => .ok (last, if 1 < steps then r.compress last r.size v else r)
  | none => .error .cyclic

/-- Redirects a value to another one. -/
def redirect (r : Replacements) (v w : Value) : Except Fault Replacements :=
  if v = w then .error .selfReplacement else .ok ⟨r.table.insert v w⟩

/-- Drops the redirection of a value, and tells whether there was one. -/
def erase (r : Replacements) (v : Value) : Bool × Replacements :=
  ((r.next? v).isSome, ⟨r.table.erase v⟩)

/-! ### Chains -/

/-- `w` is on the chain of `v`. -/
inductive Reaches (r : Replacements) : Value → Value → Prop
  | refl (v : Value) : Reaches r v v
  | step {u v w : Value} : r.next? u = some v → Reaches r v w → Reaches r u w

theorem Reaches.trans {r : Replacements} {u v w : Value} (h : r.Reaches u v)
    (h' : r.Reaches v w) : r.Reaches u w := by
  induction h with
  | refl => exact h'
  | step hn _ ih => exact .step hn (ih h')

/-- Every redirection of `r'` is a way along the redirections of `r`, from the same values. -/
structure Shortens (r r' : Replacements) : Prop where
  next?_eq_none : ∀ v, r'.next? v = none ↔ r.next? v = none
  reaches : ∀ v w, r'.next? v = some w → ∃ u, r.next? v = some u ∧ r.Reaches u w

theorem Shortens.refl (r : Replacements) : r.Shortens r :=
  ⟨fun _ => Iff.rfl, fun _ w h => ⟨w, h, .refl w⟩⟩

theorem Shortens.reaches_of {r r' : Replacements} (h : r.Shortens r') {v w : Value}
    (hw : r'.Reaches v w) : r.Reaches v w := by
  induction hw with
  | refl v => exact .refl v
  | step hn _ ih =>
    obtain ⟨u, hu, hr⟩ := h.reaches _ _ hn
    exact .step hu (hr.trans ih)

theorem Shortens.trans {r r' r'' : Replacements} (h : r.Shortens r') (h' : r'.Shortens r'') :
    r.Shortens r'' := by
  refine ⟨fun v => (h'.next?_eq_none v).trans (h.next?_eq_none v), fun v w hv => ?_⟩
  obtain ⟨u, hu, hr⟩ := h'.reaches v w hv
  obtain ⟨t, ht, hr'⟩ := h.reaches v u hu
  exact ⟨t, ht, hr'.trans (h.reaches_of hr)⟩

/-! ### Paths -/

/-- The redirected values from `v` on and the value at the end of the chain, when it ends within
`fuel` redirections. -/
def chain? (r : Replacements) : Nat → Value → Option (List Value × Value)
  | 0, v => if (r.next? v).isNone then some ([], v) else none
  | fuel + 1, v =>
    match r.next? v with
    | none => some ([], v)
    | some w => (chain? r fuel w).map fun (path, last) => (v :: path, last)

/-- Points every value of a path at its end. -/
def redirectAll (r : Replacements) (path : List Value) (last : Value) : Replacements :=
  ⟨path.foldl (·.insert · last) r.table⟩

section
variable {r r' : Replacements} {u v w last : Value} {fuel fuel' : Nat} {path : List Value}

theorem chain?_spec (h : r.chain? fuel v = some (path, last)) :
    r.Reaches v last ∧ r.next? last = none ∧
      ∀ u ∈ path, ∃ w, r.next? u = some w ∧ r.Reaches w last := by
  induction fuel generalizing v path with
  | zero =>
    simp only [chain?, Option.isNone_iff_eq_none] at h
    split at h <;> simp at h
    obtain ⟨rfl, rfl⟩ := h
    exact ⟨.refl v, by assumption, by simp⟩
  | succ fuel ih =>
    simp only [chain?] at h
    split at h
    · next hv =>
      simp only [Option.some.injEq, Prod.mk.injEq] at h
      obtain ⟨rfl, rfl⟩ := h
      exact ⟨.refl v, hv, by simp⟩
    · next w hv =>
      simp only [Option.map_eq_some_iff, Prod.mk.injEq] at h
      obtain ⟨⟨path', last'⟩, hc, rfl, rfl⟩ := h
      obtain ⟨hr, hl, hp⟩ := ih hc
      refine ⟨.step hv hr, hl, ?_⟩
      intro u hu
      rcases List.mem_cons.1 hu with rfl | hu
      · exact ⟨w, hv, hr⟩
      · exact hp u hu

/-- A chain is over at once, or it goes on from where the value is redirected to. -/
theorem chain?_cases (h : r.chain? fuel v = some (path, w)) :
    (r.next? v = none ∧ path = [] ∧ w = v) ∨
      ∃ fuel' x rest, fuel = fuel' + 1 ∧ r.next? v = some x ∧
        r.chain? fuel' x = some (rest, w) ∧ path = v :: rest := by
  cases hv : r.next? v with
  | none => cases fuel <;> simp_all [chain?]
  | some x =>
    cases fuel with
    | zero => simp [chain?, hv] at h
    | succ fuel =>
      simp only [chain?, hv, Option.map_eq_some_iff, Prod.mk.injEq] at h
      obtain ⟨⟨rest, _⟩, hrest, rfl, rfl⟩ := h
      exact .inr ⟨fuel, x, rest, rfl, rfl, hrest, rfl⟩

theorem chain?_eq_of_length_le (h : r.chain? fuel v = some (path, w)) (hle : path.length ≤ fuel') :
    r.chain? fuel' v = some (path, w) := by
  induction fuel' generalizing fuel v path with
  | zero =>
    rcases chain?_cases h with ⟨hv, rfl, rfl⟩ | ⟨_, _, rest, _, _, _, rfl⟩
    · simp [chain?, hv]
    · simp at hle
  | succ fuel' ih =>
    rcases chain?_cases h with ⟨hv, rfl, rfl⟩ | ⟨_, x, rest, _, hv, hrest, rfl⟩
    · simp [chain?, hv]
    · simp [chain?, hv, ih hrest (by simpa using hle)]

theorem chain?_unique {path' : List Value} {w' : Value} (h : r.chain? fuel v = some (path, w))
    (h' : r.chain? fuel' v = some (path', w')) : path = path' := by
  have hmax := chain?_eq_of_length_le h (Nat.le_max_left path.length path'.length)
  rw [chain?_eq_of_length_le h' (Nat.le_max_right path.length path'.length)] at hmax
  cases hmax
  rfl

/-- The chain of a value on a chain is the rest of that chain. -/
theorem exists_chain?_of_mem (h : r.chain? fuel v = some (path, w)) (hu : u ∈ path) :
    ∃ fuel' rest, r.chain? fuel' u = some (rest, w) ∧ rest.length ≤ path.length := by
  induction fuel generalizing v path with
  | zero =>
    rcases chain?_cases h with ⟨_, rfl, _⟩ | ⟨_, _, _, hfuel, _⟩
    · cases hu
    · cases hfuel
  | succ fuel ih =>
    rcases chain?_cases h with ⟨_, rfl, _⟩ | ⟨_, x, rest, ⟨⟩, _, hrest, rfl⟩
    · cases hu
    · rcases List.mem_cons.1 hu with rfl | hu
      · exact ⟨_, _, h, Nat.le_refl _⟩
      · obtain ⟨fuel', rest', hrest', hle⟩ := ih hrest hu
        exact ⟨fuel', rest', hrest', Nat.le_trans hle (Nat.le_succ _)⟩

theorem nodup_of_chain? (h : r.chain? fuel v = some (path, w)) : path.Nodup := by
  induction fuel generalizing v path with
  | zero =>
    rcases chain?_cases h with ⟨_, rfl, _⟩ | ⟨_, _, _, hfuel, _⟩
    · exact .nil
    · cases hfuel
  | succ fuel ih =>
    rcases chain?_cases h with ⟨_, rfl, _⟩ | ⟨_, x, rest, ⟨⟩, _, hrest, rfl⟩
    · exact .nil
    · refine List.nodup_cons.2 ⟨fun hmem => ?_, ih hrest⟩
      -- a value that came twice would have chains of two lengths
      obtain ⟨fuel', rest', hrest', hle⟩ := exists_chain?_of_mem hrest hmem
      rw [← chain?_unique h hrest', List.length_cons] at hle
      omega

theorem length_le_of_chain? (h : r.chain? fuel v = some (path, w)) : path.length ≤ fuel := by
  induction fuel generalizing v path with
  | zero =>
    rcases chain?_cases h with ⟨_, rfl, _⟩ | ⟨_, _, _, hfuel, _⟩
    · exact Nat.le_refl 0
    · cases hfuel
  | succ fuel ih =>
    rcases chain?_cases h with ⟨_, rfl, _⟩ | ⟨_, x, rest, ⟨⟩, _, hrest, rfl⟩
    · exact Nat.zero_le _
    · exact Nat.succ_le_succ (ih hrest)

/-- The walk counts the values of the path. -/
theorem walk?_eq (r : Replacements) (fuel : Nat) (v : Value) :
    r.walk? fuel v = (r.chain? fuel v).map fun (path, last) => (path.length, last) := by
  induction fuel generalizing v with
  | zero =>
    rw [walk?, chain?]
    split <;> rfl
  | succ fuel ih =>
    rw [walk?, chain?]
    cases r.next? v with
    | none => rfl
    | some w =>
      dsimp only
      rw [ih w]
      cases r.chain? fuel w <;> rfl

/-! ### Compression -/

theorem next?_insert (r : Replacements) (u last v : Value) :
    next? ⟨r.table.insert u last⟩ v = if v = u then some last else r.next? v := by
  unfold next?
  rw [Std.TreeMap.getElem?_insert]
  by_cases hv : v = u
  · simp [hv]
  · simp [hv, Ne.symm hv]

/-- A chain does not see that a value off it is redirected. -/
theorem chain?_insert (h : r.chain? fuel v = some (path, last)) (hpath : u ∉ path)
    (hlast : u ≠ last) (x : Value) :
    chain? ⟨r.table.insert u x⟩ fuel v = some (path, last) := by
  have hnext {y : Value} (hy : u ≠ y) : next? ⟨r.table.insert u x⟩ y = r.next? y := by
    rw [next?_insert, if_neg (Ne.symm hy)]
  induction fuel generalizing v path with
  | zero =>
    rcases chain?_cases h with ⟨hv, rfl, rfl⟩ | ⟨_, _, _, hfuel, _⟩
    · rw [chain?, hnext hlast, hv]
      rfl
    · cases hfuel
  | succ fuel ih =>
    rcases chain?_cases h with ⟨hv, rfl, rfl⟩ | ⟨_, w, rest, ⟨⟩, hv, hrest, rfl⟩
    · rw [chain?, hnext hlast, hv]
    · obtain ⟨huv, hrest'⟩ := not_or.1 (mt List.mem_cons.2 hpath)
      rw [chain?, hnext huv, hv]
      dsimp only
      rw [ih hrest hrest']
      rfl

/-- Rewriting the table while walking along a chain comes to pointing each value of its path at the
end, for any bound that lets the walk get there. -/
theorem compress_eq (h : r.chain? fuel v = some (path, last)) (hle : path.length ≤ fuel') :
    r.compress last fuel' v = r.redirectAll path last := by
  induction fuel' generalizing r fuel v path with
  | zero =>
    rw [List.length_eq_zero_iff.1 (Nat.le_zero.1 hle)]
    rfl
  | succ fuel' ih =>
    have hnodup := nodup_of_chain? h
    rcases chain?_cases h with ⟨_, rfl, rfl⟩ | ⟨_, x, rest, rfl, hv, hrest, rfl⟩
    · rw [compress, if_pos rfl]
      rfl
    · have hne : v ≠ last := by
        rintro rfl
        rw [(chain?_spec h).2.1] at hv
        cases hv
      have hrest' := chain?_insert hrest (List.nodup_cons.1 hnodup).1 hne last
      rw [compress, if_neg hne, hv]
      exact ih hrest' (Nat.le_of_succ_le_succ hle)

theorem follow_of_chain? (h : r.chain? r.size v = some (path, last)) : r.follow v = .ok last := by
  rw [follow, walk?_eq, h]
  rfl

theorem resolve_of_chain? (h : r.chain? r.size v = some (path, last)) :
    r.resolve v = .ok (last, if 1 < path.length then r.redirectAll path last else r) := by
  rw [resolve, walk?_eq, h, ← compress_eq h (length_le_of_chain? h)]
  rfl

theorem follow_of_chain?_none (h : r.chain? r.size v = none) : r.follow v = .error .cyclic := by
  rw [follow, walk?_eq, h]
  rfl

theorem resolve_of_chain?_none (h : r.chain? r.size v = none) : r.resolve v = .error .cyclic := by
  rw [resolve, walk?_eq, h]
  rfl

theorem next?_redirectAll (r : Replacements) (path : List Value) (last v : Value) :
    (r.redirectAll path last).next? v = if v ∈ path then some last else r.next? v := by
  induction path generalizing r with
  | nil => rfl
  | cons u path ih =>
    show (redirectAll ⟨r.table.insert u last⟩ path last).next? v = _
    rw [ih, next?_insert]
    by_cases hp : v ∈ path <;> by_cases hu : v = u <;> simp [hp, hu]

/-- Pointing the values of a chain at its end shortens it. -/
theorem shortens_redirectAll (h : r.chain? fuel v = some (path, last)) :
    r.Shortens (r.redirectAll path last) := by
  obtain ⟨_, _, hpath⟩ := chain?_spec h
  constructor
  · intro u
    rw [next?_redirectAll]
    split
    · next hu =>
      obtain ⟨w, hw, _⟩ := hpath u hu
      simp [hw]
    · exact Iff.rfl
  · intro u w hw
    rw [next?_redirectAll] at hw
    split at hw
    · next hu =>
      cases hw
      exact hpath u hu
    · exact ⟨w, hw, .refl w⟩

theorem resolve_spec (h : r.resolve v = .ok (w, r')) :
    r.Reaches v w ∧ r.next? w = none ∧ r.Shortens r' := by
  cases hchain : r.chain? r.size v with
  | none =>
    rw [resolve_of_chain?_none hchain] at h
    cases h
  | some p =>
    obtain ⟨path, last⟩ := p
    rw [resolve_of_chain? hchain] at h
    cases h
    obtain ⟨hreaches, hlast, _⟩ := chain?_spec hchain
    refine ⟨hreaches, hlast, ?_⟩
    split
    · exact shortens_redirectAll hchain
    · exact .refl r

end

end Replacements

end Dataflow.Legal
