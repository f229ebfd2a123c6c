import Mathlib.Algebra.Module.BigOperators
import Mathlib.LinearAlgebra.Lagrange

/-!
# Interpolation at zero over a vector space

The value at zero of a polynomial with vector coefficients is a weighted sum of its
values at any sufficiently many nodes.  The weights are those of Lagrange, they
vanish nowhere, and so a value that is wrong at a single node shows in the sum.
-/

namespace DvSpec.Library.Interpolation

open Polynomial

variable {K V ι : Type*} [Field K] [AddCommGroup V] [Module K V] [DecidableEq ι]
variable {nodes : Finset ι} {point : ι → K}

/-- The weight of a node in the value at zero. -/
def weight (nodes : Finset ι) (point : ι → K) (node : ι) : K :=
  ∏ other ∈ nodes.erase node, (0 - point other) / (point node - point other)

/-- The weighted sum of the values at the nodes. -/
def combine (nodes : Finset ι) (point : ι → K) (values : ι → V) : V :=
  ∑ node ∈ nodes, weight nodes point node • values node

/-- The value of a polynomial with the given vector coefficients. -/
def valueAt {size : Nat} (coefficients : Fin size → V) (x : K) : V :=
  ∑ power : Fin size, x ^ (power : Nat) • coefficients power

/-! ## Scalars -/

theorem weight_eq_eval_basis (node : ι) :
    weight nodes point node = (Lagrange.basis nodes point node).eval 0 := by
  rw [weight, Lagrange.basis, eval_prod]
  apply Finset.prod_congr rfl
  intro other _
  rw [Lagrange.basisDivisor, eval_mul, eval_C, eval_sub, eval_X, eval_C, div_eq_inv_mul]

/-- The weights turn the values of a polynomial of small degree into its value at zero. -/
theorem sum_weight_mul_eval (injective : Set.InjOn point nodes) {f : K[X]}
    (small : f.degree < nodes.card) :
    ∑ node ∈ nodes, weight nodes point node * f.eval (point node) = f.eval 0 := by
  conv_rhs => rw [Lagrange.eq_interpolate injective small, Lagrange.interpolate_apply,
    eval_finsetSum]
  apply Finset.sum_congr rfl
  intro node _
  rw [eval_mul, eval_C, weight_eq_eval_basis, mul_comm]

theorem sum_weight_mul_pow (injective : Set.InjOn point nodes) {power : Nat}
    (small : power < nodes.card) :
    ∑ node ∈ nodes, weight nodes point node * point node ^ power = 0 ^ power := by
  have degree : (X ^ power : K[X]).degree < nodes.card := by
    rw [degree_X_pow]
    exact_mod_cast small
  have sum := sum_weight_mul_eval injective degree
  simpa only [eval_pow, eval_X] using sum

theorem weight_ne_zero (injective : Set.InjOn point nodes)
    (nonzero : ∀ node ∈ nodes, point node ≠ 0) {node : ι} (member : node ∈ nodes) :
    weight nodes point node ≠ 0 := by
  apply Finset.prod_ne_zero_iff.mpr
  intro other among
  obtain ⟨different, otherMember⟩ := Finset.mem_erase.mp among
  apply div_ne_zero
  · rw [zero_sub]
    exact neg_ne_zero.mpr (nonzero other otherMember)
  · intro equal
    exact different (injective otherMember member (sub_eq_zero.mp equal).symm)

/-! ## Vectors -/

theorem combine_congr {values others : ι → V} (same : ∀ node ∈ nodes, values node = others node) :
    combine nodes point values = combine nodes point others :=
  Finset.sum_congr rfl fun node member => by rw [same node member]

/-- The multiples of one vector by a polynomial's values combine to its value at zero. -/
theorem combine_eval_smul (injective : Set.InjOn point nodes) {f : K[X]}
    (small : f.degree < nodes.card) (v : V) :
    combine nodes point (fun node => f.eval (point node) • v) = f.eval 0 • v := by
  rw [← sum_weight_mul_eval injective small, Finset.sum_smul]
  exact Finset.sum_congr rfl fun node _ => smul_smul _ _ _

/-- Enough values of a polynomial determine its value at zero. -/
theorem combine_valueAt {size : Nat} (injective : Set.InjOn point nodes)
    (enough : size ≤ nodes.card) (coefficients : Fin size → V) :
    combine nodes point (fun node => valueAt coefficients (point node)) =
      valueAt coefficients (0 : K) := by
  calc combine nodes point (fun node => valueAt coefficients (point node))
      = ∑ node ∈ nodes, ∑ power : Fin size,
          (weight nodes point node * point node ^ (power : Nat)) • coefficients power := by
        apply Finset.sum_congr rfl
        intro node _
        simp only [valueAt, Finset.smul_sum, smul_smul]
    _ = ∑ power : Fin size, ∑ node ∈ nodes,
          (weight nodes point node * point node ^ (power : Nat)) • coefficients power :=
        Finset.sum_comm
    _ = ∑ power : Fin size, (0 : K) ^ (power : Nat) • coefficients power := by
        apply Finset.sum_congr rfl
        intro power _
        rw [← Finset.sum_smul,
          sum_weight_mul_pow injective (Nat.lt_of_lt_of_le power.isLt enough)]

/-- A polynomial through prescribed values at the nodes. -/
theorem exists_valueAt (injective : Set.InjOn point nodes) (values : ι → V) :
    ∃ coefficients : Fin nodes.card → V, ∀ node ∈ nodes,
      valueAt coefficients (point node) = values node := by
  let coefficients : Fin nodes.card → V := fun power =>
    ∑ node ∈ nodes, (Lagrange.basis nodes point node).coeff power • values node
  refine ⟨coefficients, fun node member => ?_⟩
  have evaluated : ∀ other ∈ nodes, ∑ power : Fin nodes.card,
      point node ^ (power : Nat) * (Lagrange.basis nodes point other).coeff power =
        (Lagrange.basis nodes point other).eval (point node) := by
    intro other among
    have positive : 0 < nodes.card := Finset.card_pos.mpr ⟨other, among⟩
    have degree : (Lagrange.basis nodes point other).natDegree < nodes.card := by
      rw [Lagrange.natDegree_basis injective among]
      omega
    rw [eval_eq_sum_range' degree, ← Fin.sum_univ_eq_sum_range
      (fun power => (Lagrange.basis nodes point other).coeff power * point node ^ power)]
    exact Finset.sum_congr rfl fun power _ => mul_comm _ _
  calc valueAt coefficients (point node)
      = ∑ other ∈ nodes, (∑ power : Fin nodes.card, point node ^ (power : Nat) *
          (Lagrange.basis nodes point other).coeff power) • values other := by
        simp only [valueAt, coefficients, Finset.smul_sum, Finset.sum_smul, smul_smul]
        exact Finset.sum_comm
    _ = ∑ other ∈ nodes, (Lagrange.basis nodes point other).eval (point node) • values other :=
        Finset.sum_congr rfl fun other among => by rw [evaluated other among]
    _ = values node := by
        rw [Finset.sum_eq_single node]
        · rw [Lagrange.eval_basis_self injective member, one_smul]
        · intro other _ different
          rw [Lagrange.eval_basis_of_ne different member, zero_smul]
        · exact fun absent => absurd member absent

/-- Two families that combine alike and agree at all nodes but one agree there too. -/
theorem eq_of_combine_eq (injective : Set.InjOn point nodes)
    (nonzero : ∀ node ∈ nodes, point node ≠ 0) {values others : ι → V} {node : ι}
    (member : node ∈ nodes)
    (same : ∀ other ∈ nodes, other ≠ node → values other = others other)
    (combined : combine nodes point values = combine nodes point others) :
    values node = others node := by
  rw [combine, combine, ← Finset.add_sum_erase _ _ member,
    ← Finset.add_sum_erase _ _ member] at combined
  have rest : ∑ other ∈ nodes.erase node, weight nodes point other • values other =
      ∑ other ∈ nodes.erase node, weight nodes point other • others other := by
    apply Finset.sum_congr rfl
    intro other among
    obtain ⟨different, otherMember⟩ := Finset.mem_erase.mp among
    rw [same other otherMember different]
  rw [rest] at combined
  have weighted := add_right_cancel combined
  have invertible := weight_ne_zero injective nonzero member
  rw [← inv_smul_smul₀ invertible (values node), weighted, inv_smul_smul₀ invertible]

/-! ## Checking shares one substitution at a time -/

/-- A quorum of values and, for every further node, the quorum with one fixed member replaced
by it, all combine to the secret iff all values lie on one polynomial through the secret. -/
theorem combine_substituted_iff {all quorum : Finset ι} {last : ι} {size : Nat}
    (injective : Set.InjOn point all) (nonzero : ∀ node ∈ all, point node ≠ 0)
    (included : quorum ⊆ all) (card : quorum.card = size) (member : last ∈ quorum)
    {values : ι → V} {secret : V} :
    (combine quorum point values = secret ∧
        ∀ extra ∈ all \ quorum,
          combine (insert extra (quorum.erase last)) point values = secret) ↔
      ∃ coefficients : Fin size → V, valueAt coefficients (0 : K) = secret ∧
        ∀ node ∈ all, valueAt coefficients (point node) = values node := by
  subst card
  have injectiveOn : ∀ {nodes : Finset ι}, nodes ⊆ all → Set.InjOn point nodes :=
    fun subset => injective.mono (Finset.coe_subset.mpr subset)
  have substituted : ∀ extra ∈ all \ quorum,
      insert extra (quorum.erase last) ⊆ all ∧
        quorum.card ≤ (insert extra (quorum.erase last)).card := by
    intro extra outside
    obtain ⟨inAll, notQuorum⟩ := Finset.mem_sdiff.mp outside
    refine ⟨Finset.insert_subset inAll ((Finset.erase_subset _ _).trans included), ?_⟩
    rw [Finset.card_insert_of_notMem fun among => notQuorum (Finset.mem_of_mem_erase among),
      Finset.card_erase_of_mem member]
    omega
  constructor
  · rintro ⟨first, others⟩
    obtain ⟨coefficients, through⟩ := exists_valueAt (injectiveOn included) values
    have atZero : valueAt coefficients (0 : K) = secret := by
      rw [← first, ← combine_valueAt (injectiveOn included) (Nat.le_refl _) coefficients]
      exact combine_congr through
    refine ⟨coefficients, atZero, fun node inAll => ?_⟩
    by_cases inQuorum : node ∈ quorum
    · exact through node inQuorum
    · -- the substituted quorum pins the value at the node that entered it
      have outside := Finset.mem_sdiff.mpr ⟨inAll, inQuorum⟩
      obtain ⟨subset, enough⟩ := substituted node outside
      let curve : ι → V := fun other => valueAt coefficients (point other)
      have kept : ∀ other ∈ insert node (quorum.erase last), other ≠ node →
          curve other = values other := by
        intro other among different
        exact through other
          (Finset.mem_of_mem_erase (Finset.mem_of_mem_insert_of_ne among different))
      have combined : combine (insert node (quorum.erase last)) point curve =
          combine (insert node (quorum.erase last)) point values := by
        rw [combine_valueAt (injectiveOn subset) enough, atZero, others node outside]
      exact eq_of_combine_eq (injectiveOn subset) (fun other among => nonzero other (subset among))
        (Finset.mem_insert_self _ _) kept combined
  · rintro ⟨coefficients, atZero, through⟩
    have combines : ∀ nodes ⊆ all, quorum.card ≤ nodes.card →
        combine nodes point values = secret := by
      intro nodes subset enough
      rw [← atZero, ← combine_valueAt (injectiveOn subset) enough coefficients]
      apply combine_congr
      intro node among
      exact (through node (subset among)).symm
    refine ⟨combines quorum included (Nat.le_refl _), fun extra outside => ?_⟩
    obtain ⟨subset, enough⟩ := substituted extra outside
    exact combines _ subset enough

end DvSpec.Library.Interpolation
