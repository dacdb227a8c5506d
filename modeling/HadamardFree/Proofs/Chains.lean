import HadamardFree.Gate.Depth
import Mathlib.Data.List.Chain
import Mathlib.Order.Bounds.Image

/-!
# Chains of CX gates

The depth of a circuit comes out of one pass that keeps a number for every qubit. No chain is
longer than it says, and one is as long:

* `Gate.Chain`: positions of CX gates in circuit order, each gate on a qubit of the one before;
* `Gate.chain_concat_iff`: the chains of a circuit with one more gate;
* `Gate.isGreatest_chainAt`: the number kept for a qubit is the length of the longest chain that
  ends on it;
* `Gate.isGreatest_cxDepth`: the depth is the length of the longest chain of all;
* `depth_is_longest_chain`: the same for the depth as it is asked for, which needs a table with an
  entry for every qubit.
-/

namespace HadamardFree

namespace Gate

variable {gates : List Gate} {g : Gate} {positions : List Nat} {i q : Nat}

/-! ## Chains -/

/-- The gate at position `i` acts on qubit `q`. -/
def ActsAt (gates : List Gate) (i q : Nat) : Prop :=
  ∃ g, gates[i]? = some g ∧ q ∈ g.qubits

/-- Positions of CX gates in circuit order, each of them on a qubit of the one before. -/
structure Chain (gates : List Gate) (positions : List Nat) : Prop where
  ordered : positions.Pairwise (· < ·)
  cx : ∀ i ∈ positions, ∃ c t, gates[i]? = some (.cx c t)
  linked : positions.IsChain fun i j => ∃ q, ActsAt gates i q ∧ ActsAt gates j q

/-- The last gate of the chain acts on qubit `q`. There is nothing to ask of the empty chain. -/
def EndsOn (gates : List Gate) (q : Nat) (positions : List Nat) : Prop :=
  ∀ i ∈ positions.getLast?, ActsAt gates i q

/-- The lengths that chains have. -/
def chainLengths (gates : List Gate) : Set Nat :=
  {d | ∃ positions, Chain gates positions ∧ positions.length = d}

/-- The lengths of the chains that end on qubit `q`. -/
def lengthsOn (gates : List Gate) (q : Nat) : Set Nat :=
  {d | ∃ positions, Chain gates positions ∧ EndsOn gates q positions ∧ positions.length = d}

/-- The lengths of the chains that gate `g` ends, if it comes behind the gates. -/
def lengthsWith (gates : List Gate) (g : Gate) : Set Nat :=
  {d | g.isCX = true ∧ ∃ q ∈ g.qubits, ∃ d' ∈ lengthsOn gates q, d = d' + 1}

theorem chain_nil (gates : List Gate) : Chain gates [] :=
  ⟨.nil, List.forall_mem_nil _, .nil⟩

theorem Chain.lt_length (h : Chain gates positions) (hi : i ∈ positions) : i < gates.length := by
  obtain ⟨c, t, found⟩ := h.cx i hi
  exact (List.getElem?_eq_some_iff.mp found).1

theorem Chain.eq_nil (h : Chain [] positions) : positions = [] := by
  apply List.eq_nil_iff_forall_not_mem.mpr
  intro i hi
  exact Nat.not_lt_zero i (h.lt_length hi)

theorem isCX_iff : g.isCX = true ↔ ∃ c t, g = .cx c t := by
  cases g <;> simp [isCX]

/-! ## One more gate -/

theorem actsAt_concat (hi : i < gates.length) : ActsAt (gates ++ [g]) i q ↔ ActsAt gates i q := by
  rw [ActsAt, ActsAt, List.getElem?_append_left hi]

theorem actsAt_last : ActsAt (gates ++ [g]) gates.length q ↔ q ∈ g.qubits := by
  simp [ActsAt]

theorem endsOn_concat (inside : ∀ i ∈ positions, i < gates.length) :
    EndsOn (gates ++ [g]) q positions ↔ EndsOn gates q positions := by
  refine forall₂_congr fun i hi => actsAt_concat (inside i ?_)
  exact List.mem_of_getLast? hi

/-- Chains that do not reach the last gate do not depend on it. -/
theorem chain_concat (inside : ∀ i ∈ positions, i < gates.length) :
    Chain (gates ++ [g]) positions ↔ Chain gates positions := by
  have cx : (∀ i ∈ positions, ∃ c t, (gates ++ [g])[i]? = some (.cx c t)) ↔
      ∀ i ∈ positions, ∃ c t, gates[i]? = some (.cx c t) := by
    refine forall₂_congr fun i hi => ?_
    rw [List.getElem?_append_left (inside i hi)]
  have linked : (positions.IsChain fun i j =>
        ∃ q, ActsAt (gates ++ [g]) i q ∧ ActsAt (gates ++ [g]) j q) ↔
      positions.IsChain fun i j => ∃ q, ActsAt gates i q ∧ ActsAt gates j q := by
    apply List.IsChain.iff_of_mem_imp
    intro i j hi hj
    simp only [actsAt_concat (inside i hi), actsAt_concat (inside j hj)]
  constructor
  · intro h
    exact ⟨h.ordered, cx.mp h.cx, linked.mp h.linked⟩
  · intro h
    exact ⟨h.ordered, cx.mpr h.cx, linked.mpr h.linked⟩

theorem chain_snoc_iff :
    Chain gates (positions ++ [i]) ↔ Chain gates positions ∧ (∀ j ∈ positions, j < i) ∧
      (∃ c t, gates[i]? = some (.cx c t)) ∧
      ∀ j ∈ positions.getLast?, ∃ q, ActsAt gates j q ∧ ActsAt gates i q := by
  constructor
  · rintro ⟨ordered, cx, linked⟩
    obtain ⟨ordered, -, below⟩ := List.pairwise_append.mp ordered
    obtain ⟨cx, last⟩ := List.forall_mem_append.mp cx
    obtain ⟨linked, -, link⟩ := List.isChain_append.mp linked
    exact ⟨⟨ordered, cx, linked⟩, by simpa using below, by simpa using last, by simpa using link⟩
  · rintro ⟨⟨ordered, cx, linked⟩, below, last, link⟩
    refine ⟨List.pairwise_append.mpr ⟨ordered, List.pairwise_singleton .., by simpa using below⟩,
      List.forall_mem_append.mpr ⟨cx, by simpa using last⟩,
      List.isChain_append.mpr ⟨linked, .singleton _, by simpa using link⟩⟩

/-- Behind one more gate there are the chains from before, and those that the gate ends. -/
theorem chain_concat_iff :
    Chain (gates ++ [g]) positions ↔ Chain gates positions ∨
      ∃ before, positions = before ++ [gates.length] ∧ Chain gates before ∧ g.isCX = true ∧
        ∃ q ∈ g.qubits, EndsOn gates q before := by
  constructor
  · intro h
    rcases List.eq_nil_or_concat' positions with rfl | ⟨before, i, rfl⟩
    · exact .inl (chain_nil gates)
    obtain ⟨front, below, ⟨c, t, found⟩, link⟩ := chain_snoc_iff.mp h
    have hi : i < gates.length + 1 := by
      simpa using (List.getElem?_eq_some_iff.mp found).1
    have inside : ∀ j ∈ before, j < gates.length := by
      intro j hj
      have := below j hj
      omega
    rcases Nat.lt_succ_iff_lt_or_eq.mp hi with earlier | rfl
    · left
      refine (chain_concat ?_).mp h
      exact List.forall_mem_append.mpr ⟨inside, by simpa using earlier⟩
    · right
      obtain rfl : g = .cx c t := by simpa using found
      refine ⟨before, rfl, (chain_concat inside).mp front, rfl, ?_⟩
      cases last : before.getLast? with
      | none => exact ⟨c, by simp [qubits], by simp [EndsOn, last]⟩
      | some j =>
        obtain ⟨q, acts, shared⟩ := link j last
        refine ⟨q, actsAt_last.mp shared, ?_⟩
        intro i hi
        obtain rfl : j = i := by simpa [last] using hi
        exact (actsAt_concat (inside j (List.mem_of_getLast? last))).mp acts
  · rintro (h | ⟨before, rfl, h, kind, q, acts, ends⟩)
    · exact (chain_concat fun i hi => h.lt_length hi).mpr h
    · have inside : ∀ j ∈ before, j < gates.length := fun j hj => h.lt_length hj
      obtain ⟨c, t, rfl⟩ := isCX_iff.mp kind
      refine chain_snoc_iff.mpr ⟨(chain_concat inside).mpr h, inside, ⟨c, t, by simp⟩, ?_⟩
      intro j hj
      exact ⟨q, (actsAt_concat (inside j (List.mem_of_getLast? hj))).mpr (ends j hj),
        actsAt_last.mpr acts⟩

theorem chainLengths_concat (gates : List Gate) (g : Gate) :
    chainLengths (gates ++ [g]) = chainLengths gates ∪ lengthsWith gates g := by
  ext d
  constructor
  · rintro ⟨positions, chain, rfl⟩
    rcases chain_concat_iff.mp chain with h | ⟨before, rfl, h, kind, q, acts, ends⟩
    · exact .inl ⟨positions, h, rfl⟩
    · exact .inr ⟨kind, q, acts, _, ⟨before, h, ends, rfl⟩, by simp⟩
  · rintro (⟨positions, h, rfl⟩ | ⟨kind, q, acts, _, ⟨before, h, ends, rfl⟩, rfl⟩)
    · exact ⟨positions, chain_concat_iff.mpr (.inl h), rfl⟩
    · exact ⟨before ++ [gates.length],
        chain_concat_iff.mpr (.inr ⟨before, rfl, h, kind, q, acts, ends⟩), by simp⟩

theorem lengthsOn_concat (gates : List Gate) (g : Gate) (q : Nat) :
    lengthsOn (gates ++ [g]) q =
      lengthsOn gates q ∪ {d ∈ lengthsWith gates g | q ∈ g.qubits} := by
  ext d
  constructor
  · rintro ⟨positions, chain, on, rfl⟩
    rcases chain_concat_iff.mp chain with h | ⟨before, rfl, h, kind, q', acts, ends⟩
    · exact .inl ⟨positions, h, (endsOn_concat fun i hi => h.lt_length hi).mp on, rfl⟩
    · have last : q ∈ g.qubits := actsAt_last.mp (on _ (by simp))
      exact .inr ⟨⟨kind, q', acts, _, ⟨before, h, ends, rfl⟩, by simp⟩, last⟩
  · rintro (⟨positions, h, on, rfl⟩ | ⟨⟨kind, q', acts, _, ⟨before, h, ends, rfl⟩, rfl⟩, last⟩)
    · exact ⟨positions, chain_concat_iff.mpr (.inl h),
        (endsOn_concat fun i hi => h.lt_length hi).mpr on, rfl⟩
    · refine ⟨before ++ [gates.length],
        chain_concat_iff.mpr (.inr ⟨before, rfl, h, kind, q', acts, ends⟩), ?_, by simp⟩
      intro i hi
      obtain rfl : gates.length = i := by simpa using hi
      exact actsAt_last.mpr last

theorem lengthsWith_of_not_isCX (kind : g.isCX = false) : lengthsWith gates g = ∅ := by
  simp [lengthsWith, kind]

theorem lengthsWith_cx (gates : List Gate) (c t : Nat) :
    lengthsWith gates (.cx c t) = (· + 1) '' (lengthsOn gates c ∪ lengthsOn gates t) := by
  ext d
  simp [lengthsWith, isCX, qubits, or_and_right, exists_or, eq_comm]

/-! ## The pass -/

theorem chainAt_cx (ends : List (Nat × Nat)) (c t q : Nat) :
    chainAt (extendChains ends (.cx c t)) q =
      if q ∈ (Gate.cx c t).qubits then max (chainAt ends c) (chainAt ends t) + 1
      else chainAt ends q := by
  by_cases hc : q = c
  · simp [chainAt, extendChains, qubits, hc]
  · have notControl : (q == c) = false := beq_false_of_ne hc
    by_cases ht : q = t
    · subst ht
      simp [chainAt, extendChains, qubits, List.lookup_cons, notControl]
    · have notTarget : (q == t) = false := beq_false_of_ne ht
      simp [chainAt, extendChains, qubits, List.lookup_cons, hc, ht, notControl, notTarget]

theorem extendChains_of_not_isCX (ends : List (Nat × Nat)) (kind : g.isCX = false) :
    extendChains ends g = ends := by
  cases g with
  | cx c t => cases kind
  | h | s | cz | meas => rfl

/-- A CX gate ends a chain that is longer by one than the longest one on its qubits. -/
theorem isGreatest_lengthsWith {dc dt c t : Nat} (control : IsGreatest (lengthsOn gates c) dc)
    (target : IsGreatest (lengthsOn gates t) dt) :
    IsGreatest (lengthsWith gates (.cx c t)) (max dc dt + 1) := by
  have shift : Monotone fun d : Nat => d + 1 := fun _ _ h => Nat.add_le_add_right h 1
  rw [lengthsWith_cx]
  exact shift.map_isGreatest (control.union target)

/-- The pass keeps for every qubit the length of the longest chain that ends on it. -/
theorem isGreatest_chainAt (gates : List Gate) (q : Nat) :
    IsGreatest (lengthsOn gates q) (chainAt (gates.foldl extendChains []) q) := by
  induction gates using List.reverseRecOn generalizing q with
  | nil =>
    refine ⟨⟨[], chain_nil [], by simp [EndsOn], rfl⟩, ?_⟩
    rintro _ ⟨positions, chain, -, rfl⟩
    rw [chain.eq_nil]
    exact Nat.le_refl 0
  | append_singleton gates g ih =>
    rw [List.foldl_append, List.foldl_cons, List.foldl_nil, lengthsOn_concat]
    cases kind : g.isCX with
    | false =>
      rw [extendChains_of_not_isCX _ kind, lengthsWith_of_not_isCX kind]
      simpa using ih q
    | true =>
      obtain ⟨c, t, rfl⟩ := isCX_iff.mp kind
      have new := isGreatest_lengthsWith (ih c) (ih t)
      rw [chainAt_cx]
      by_cases acts : q ∈ (Gate.cx c t).qubits
      · -- A chain that ended on this qubit before is no longer than one of the two.
        have longer : chainAt (gates.foldl extendChains []) q ≤
            max (chainAt (gates.foldl extendChains []) c) (chainAt (gates.foldl extendChains []) t)
              + 1 := by
          have : q = c ∨ q = t := by simpa [qubits] using acts
          rcases this with rfl | rfl <;> omega
        have both := (ih q).union new
        rw [max_eq_right longer] at both
        simpa [acts] using both
      · simpa [acts] using ih q

/-- The depth with one more gate: an entry of the pass is as long as any. -/
theorem cxDepth_concat (gates : List Gate) (c t : Nat) :
    cxDepth (gates ++ [.cx c t]) = max (cxDepth gates)
      (max (chainAt (gates.foldl extendChains []) c) (chainAt (gates.foldl extendChains []) t)
        + 1) := by
  have first : ∀ (d : Nat) (ds : List Nat), (d :: ds).foldl max 0 = max (ds.foldl max 0) d := by
    intro d ds
    rw [List.foldl_cons, max_comm 0 d, List.foldl_assoc, max_comm]
  rw [cxDepth, List.foldl_append, List.foldl_cons, List.foldl_nil, extendChains, List.map_cons,
    List.map_cons, first, first, max_assoc, max_self]
  rfl

theorem isGreatest_cxDepth (gates : List Gate) :
    IsGreatest (chainLengths gates) (cxDepth gates) := by
  induction gates using List.reverseRecOn with
  | nil =>
    refine ⟨⟨[], chain_nil [], rfl⟩, ?_⟩
    rintro _ ⟨positions, chain, rfl⟩
    rw [chain.eq_nil]
    exact Nat.le_refl 0
  | append_singleton gates g ih =>
    rw [chainLengths_concat]
    cases kind : g.isCX with
    | false =>
      have same : cxDepth (gates ++ [g]) = cxDepth gates := by
        rw [cxDepth, List.foldl_append, List.foldl_cons, List.foldl_nil,
          extendChains_of_not_isCX _ kind, cxDepth]
      rw [same, lengthsWith_of_not_isCX kind, Set.union_empty]
      exact ih
    | true =>
      obtain ⟨c, t, rfl⟩ := isCX_iff.mp kind
      have new := isGreatest_lengthsWith (isGreatest_chainAt gates c) (isGreatest_chainAt gates t)
      rw [cxDepth_concat]
      exact ih.union new

/-! ## The table -/

theorem foldl_max_lt_iff {ds : List Nat} {d bound : Nat} :
    ds.foldl max d < bound ↔ d < bound ∧ ∀ d' ∈ ds, d' < bound := by
  induction ds generalizing d with
  | nil => simp
  | cons d' ds ih => rw [List.foldl_cons, ih, Nat.max_lt, List.forall_mem_cons, and_assoc]

/-- There is room for the table if there is room up to every single qubit. -/
theorem span_lt_iff {bound : Nat} (positive : 0 < bound) :
    span gates < bound ↔ ∀ g ∈ gates, ∀ q ∈ g.qubits, q + 1 < bound := by
  rw [span, foldl_max_lt_iff]
  simp only [positive, true_and, List.forall_mem_map, List.mem_flatMap, forall_exists_index,
    and_imp]
  exact ⟨fun h g hg q hq => h q g hg hq, fun h q g hg hq => h g hg q hq⟩

end Gate

theorem fitsNumbers_iff {n : Nat} : fitsNumbers n = true ↔ n < 1 <<< 60 := by
  rw [fitsNumbers, decide_eq_true_eq, byteLimit]
  omega

/-- **The depth is the longest chain.** If there can be a table with a number for every qubit up to
the highest one, the depth is the length of a chain of CX gates, and no chain is longer; without CX
gates it is zero. If there cannot be such a table, there is no answer. -/
theorem depth_is_longest_chain (gates : List Gate) :
    ((∀ g ∈ gates, ∀ q ∈ g.qubits, q + 1 < 1 <<< 60) → ∃ depth, Gate.cxDepth? gates = some depth ∧
      IsGreatest {d | ∃ positions, Gate.Chain gates positions ∧ positions.length = d} depth ∧
      ((∀ g ∈ gates, g.isCX = false) → depth = 0)) ∧
    ((∃ g ∈ gates, ∃ q ∈ g.qubits, 1 <<< 60 ≤ q + 1) → Gate.cxDepth? gates = none) := by
  have room : fitsNumbers (Gate.span gates) = true ↔
      ∀ g ∈ gates, ∀ q ∈ g.qubits, q + 1 < 1 <<< 60 :=
    fitsNumbers_iff.trans (Gate.span_lt_iff (by decide))
  constructor
  · intro low
    refine ⟨Gate.cxDepth gates, if_pos (room.mpr low), Gate.isGreatest_cxDepth gates, ?_⟩
    intro none
    obtain ⟨⟨positions, chain, length⟩, -⟩ := Gate.isGreatest_cxDepth gates
    have empty : positions = [] := by
      apply List.eq_nil_iff_forall_not_mem.mpr
      intro i hi
      obtain ⟨c, t, found⟩ := chain.cx i hi
      cases none _ (List.mem_of_getElem? found)
    rw [← length, empty]
    rfl
  · rintro ⟨g, hg, q, hq, high⟩
    have none : ¬ fitsNumbers (Gate.span gates) = true := by
      intro fits
      exact absurd (room.mp fits g hg q hq) (Nat.not_lt.mpr high)
    exact if_neg none

/-- Gates on six qubits. The CX gates at positions 0, 3 and 5 are a longest chain; the one between
them on qubits of its own, and the CZ gate, do not lengthen it. -/
theorem depth_of_interleaved_gates :
    let gates : List Gate := [.cx 0 1, .cx 3 4, .cz 1 2, .cx 1 2, .h 2, .cx 5 2]
    (∀ g ∈ gates, ∀ q ∈ g.qubits, q + 1 < 1 <<< 60) ∧ Gate.cxDepth? gates = some 3 ∧
      IsGreatest {d | ∃ positions, Gate.Chain gates positions ∧ positions.length = d} 3 := by
  intro gates
  have low : ∀ g ∈ gates, ∀ q ∈ g.qubits, q + 1 < 1 <<< 60 := by decide
  obtain ⟨depth, found, greatest, -⟩ := (depth_is_longest_chain gates).1 low
  have computed : Gate.cxDepth? gates = some 3 := by decide
  rw [computed] at found
  cases found
  exact ⟨low, computed, greatest⟩

/-- One CX gate is a chain, but if one of its qubits is as high as this, there is no answer. -/
theorem depth_without_room :
    let gates : List Gate := [.cx (1 <<< 60 - 1) 0]
    (∀ g ∈ gates, ∀ q ∈ g.qubits, q < 1 <<< 64 - 1) ∧
      IsGreatest {d | ∃ positions, Gate.Chain gates positions ∧ positions.length = d} 1 ∧
      ¬ ∃ depth, Gate.cxDepth? gates = some depth := by
  intro gates
  refine ⟨by decide, Gate.isGreatest_cxDepth gates, ?_⟩
  rintro ⟨depth, found⟩
  have none : Gate.cxDepth? gates = none := by decide
  rw [none] at found
  cases found

end HadamardFree
