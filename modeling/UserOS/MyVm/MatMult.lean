import Mathlib.Algebra.BigOperators.Group.Finset.Basic
import UserOS.MyVm.Access

/-!
# `mat_mult`

Three nested loops read the elements of two matrices through `get_value` and store those of the
product through `put_value`. The products and sums are those of 32-bit unsigned integers, and so
are the addresses.

* `dotLoop_spec`: one element of the product, whatever the reads do to the TLB.
* `rowLoop_spec`, `rowsLoop_spec`: the elements stored so far are the first ones of `answer`.
* `mat_mult_spec`: the product.
-/

namespace UserOS.MyVm

open Lib

/-! ## The function -/

/-- The address of the element at `row` and `col`. -/
def elementAddr (mat size row col : ℕ) : ℕ := (mat + row * size * 4 + col * 4) % 2 ^ 32

/-- The loop of `k`, with `n` products left. -/
def dotLoop (μ : Malloc TlbNode) (mat1 mat2 size i j : ℕ) :
    ℕ → Vm → ℕ → Bytes → Bytes → ℕ → Option (Vm × ℕ)
  | 0, vm, _, _, _, c => some (vm, c)
  | n + 1, vm, k, a, b, c => do
    let addressA := elementAddr mat1 size i k
    let addressB := elementAddr mat2 size k j
    let (vm, a) ← getValue μ vm addressA a 4
    let (vm, b) ← getValue μ vm addressB b 4
    dotLoop μ mat1 mat2 size i j n vm (k + 1) a b
      ((c + a.getNat 0 4 * b.getNat 0 4) % 2 ^ 32)

/-- The loop of `j`, with `n` columns left. The variables `a` and `b` hold the bytes `stack` when
they are declared. -/
def rowLoop (μ : Malloc TlbNode) (stack : Bytes) (mat1 mat2 size answer i : ℕ) :
    ℕ → Vm → ℕ → Option Vm
  | 0, vm, _ => some vm
  | n + 1, vm, j => do
    let (vm, c) ← dotLoop μ mat1 mat2 size i j size vm 0 stack stack 0
    let addressC := elementAddr answer size i j
    let vm ← putValue μ vm addressC (Bytes.zero.setNat 0 4 c) 4
    rowLoop μ stack mat1 mat2 size answer i n vm (j + 1)

/-- The loop of `i`, with `n` rows left. -/
def rowsLoop (μ : Malloc TlbNode) (stack : Bytes) (mat1 mat2 size answer : ℕ) :
    ℕ → Vm → ℕ → Option Vm
  | 0, vm, _ => some vm
  | n + 1, vm, i => do
    let vm ← rowLoop μ stack mat1 mat2 size answer i size vm 0
    rowsLoop μ stack mat1 mat2 size answer n vm (i + 1)

/-- `mat_mult`. -/
def matMult (μ : Malloc TlbNode) (stack : Bytes) (vm : Vm) (mat1 mat2 size answer : ℕ) :
    Option Vm :=
  rowsLoop μ stack mat1 mat2 size answer size vm 0

/-! ## Virtual words -/

/-- The virtual bytes. -/
def Vm.virt (vm : Vm) : Bytes := fun a => vm.mem (vm.phys a)

/-- The element at `row` and `col` of the matrix at `mat`. -/
def Vm.element (vm : Vm) (mat size row col : ℕ) : ℕ :=
  vm.virt.getNat (mat + 4 * (row * size + col)) 4

/-- The element at `i` and `j` of the product. -/
def Vm.product (vm : Vm) (mat1 mat2 size i j : ℕ) : ℕ :=
  (∑ k ∈ Finset.range size, vm.element mat1 size i k * vm.element mat2 size k j) % 2 ^ 32

variable {μ : Malloc TlbNode} {stack : Bytes} {vm s : Vm} {mat mat1 mat2 answer n m i j k : ℕ}

theorem MappedRange.sub {a p q : ℕ} (h : MappedRange vm a n) (hpq : p + q ≤ n) :
    MappedRange vm (a + p) q :=
  ⟨by have := h.fits; omega, fun b h1 h2 => h.mapped b (by omega) (by omega)⟩

/-- The elements of a matrix are inside. -/
theorem element_inside (hi : i < n) (hj : j < n) : 4 * (i * n + j) + 4 ≤ 4 * (n * n) := by
  have hrow : (i + 1) * n ≤ n * n := Nat.mul_le_mul_right n hi
  rw [Nat.succ_mul] at hrow
  omega

theorem elementAddr_eq (hfits : mat + 4 * (n * n) ≤ 2 ^ 32) (hi : i < n) (hj : j < n) :
    elementAddr mat n i j = mat + 4 * (i * n + j) := by
  have hin := element_inside hi hj
  unfold elementAddr
  rw [Nat.mod_eq_of_lt (by omega)]
  omega

/-- What `get_value` reads is an element. -/
theorem getValue_element (μ : Malloc TlbNode) (val : Bytes) (h : PagesOk s) (htlb : TlbAgrees s)
    (hlock : s.mutex = false) (hmap : MappedRange s mat (4 * (n * n))) (hi : i < n) (hj : j < n) :
    ∃ T val', getValue μ s (elementAddr mat n i j) val 4 = some ({ s with tlb := T }, val') ∧
      TlbAgrees { s with tlb := T } ∧ val'.getNat 0 4 = s.element mat n i j := by
  rw [elementAddr_eq hmap.fits hi hj]
  obtain ⟨T, val', hget, hagrees, hval⟩ := getValue_spec μ val h htlb hlock (show 0 < 4 by decide)
    (hmap.sub (element_inside hi hj))
  refine ⟨T, val', hget, hagrees, Bytes.getNat_congr fun k hk => ?_⟩
  rw [Nat.zero_add, hval k hk]
  rfl

/-! ## The loops -/

/-- **One element.** The loop adds up the products that are left. -/
theorem dotLoop_spec (μ : Malloc TlbNode) (m : ℕ) : ∀ {s : Vm} {k c : ℕ} {a b : Bytes}, PagesOk s →
    TlbAgrees s → s.mutex = false → MappedRange s mat1 (4 * (n * n)) →
    MappedRange s mat2 (4 * (n * n)) → i < n → j < n → k + m = n → c < 2 ^ 32 →
    ∃ T, dotLoop μ mat1 mat2 n i j m s k a b c = some ({ s with tlb := T },
      (c + ∑ l ∈ Finset.range m, s.element mat1 n i (k + l) * s.element mat2 n (k + l) j) %
        2 ^ 32) ∧ TlbAgrees { s with tlb := T } := by
  induction m with
  | zero =>
    intro s k c a b _ htlb _ _ _ _ _ _ hc
    refine ⟨s.tlb, ?_, htlb⟩
    rw [dotLoop, Finset.sum_range_zero, Nat.add_zero, Nat.mod_eq_of_lt hc]
  | succ m ih =>
    intro s k c a b h htlb hlock hmap1 hmap2 hi hj hk hc
    obtain ⟨T, a', hget, hagrees, ha⟩ := getValue_element μ a h htlb hlock hmap1 hi
      (show k < n by omega)
    obtain ⟨T', b', hget', hagrees', hb⟩ := getValue_element μ b (h.withTlb T) hagrees hlock
      (hmap2.congr fun _ => rfl) (show k < n by omega) hj
    obtain ⟨T'', hrec, hagrees''⟩ := ih (s := { s with tlb := T' }) (k := k + 1)
      (c := (c + a'.getNat 0 4 * b'.getNat 0 4) % 2 ^ 32) (a := a') (b := b')
      (h.withTlb T') hagrees' hlock (hmap1.congr fun _ => rfl) (hmap2.congr fun _ => rfl) hi hj
      (by omega) (Nat.mod_lt _ (by decide))
    refine ⟨T'', ?_, hagrees''⟩
    have hshift : ∑ l ∈ Finset.range m,
        s.element mat1 n i (k + 1 + l) * s.element mat2 n (k + 1 + l) j =
          ∑ l ∈ Finset.range m,
            s.element mat1 n i (k + (l + 1)) * s.element mat2 n (k + (l + 1)) j :=
      Finset.sum_congr rfl fun l _ => by rw [Nat.add_assoc, Nat.add_comm 1]
    have hsum : ((c + a'.getNat 0 4 * b'.getNat 0 4) % 2 ^ 32 + ∑ l ∈ Finset.range m,
        s.element mat1 n i (k + 1 + l) * s.element mat2 n (k + 1 + l) j) % 2 ^ 32 =
          (c + ∑ l ∈ Finset.range (m + 1),
            s.element mat1 n i (k + l) * s.element mat2 n (k + l) j) % 2 ^ 32 := by
      have hb' : b'.getNat 0 4 = s.element mat2 n k j := hb
      rw [Nat.mod_add_mod, Finset.sum_range_succ', ha, hb', hshift, Nat.add_assoc,
        Nat.add_comm (Finset.sum _ _)]
      rfl
    simp only [dotLoop, hget, hget', Option.bind_eq_bind, Option.bind_some]
    exact hrec.trans (congrArg (fun x => some (({ s with tlb := T'' } : Vm), x)) hsum)

/-- The byte at `q` of the product, row by row. -/
def Vm.productByte (vm : Vm) (mat1 mat2 size q : ℕ) : UInt8 :=
  UInt8.ofNat (vm.product mat1 mat2 size (q / 4 / size) (q / 4 % size) / 256 ^ (q % 4))

theorem productByte_eq {q : ℕ} (hj : j < n) (hq : q < 4) :
    vm.productByte mat1 mat2 n (4 * (i * n + j) + q) =
      UInt8.ofNat (vm.product mat1 mat2 n i j / 256 ^ q) := by
  have hindex : (4 * (i * n + j) + q) / 4 = j + n * i := by rw [Nat.mul_comm n]; omega
  unfold Vm.productByte
  rw [hindex, Nat.add_mul_div_left _ _ (by omega), Nat.div_eq_of_lt hj, Nat.zero_add,
    Nat.add_mul_mod_self_left, Nat.mod_eq_of_lt hj, show (4 * (i * n + j) + q) % 4 = q by omega]

theorem Stored.congr {A : ℕ} {f g : ℕ → UInt8} (h : Stored vm s A n f) (hfg : ∀ k < n, f k = g k) :
    Stored vm s A n g where
  pages := h.pages
  tlb := h.tlb
  start := h.start
  entry := h.entry
  byte a ha hmap := by
    rw [h.byte a ha hmap]
    split_ifs with hin
    · exact hfg _ (by omega)
    · rfl

theorem Stored.withTlb {A : ℕ} {f : ℕ → UInt8} {T : Tlb} (h : Stored vm s A n f)
    (hagrees : TlbAgrees { s with tlb := T }) : Stored vm { s with tlb := T } A n f :=
  ⟨h.pages.withTlb T, hagrees, h.start, h.entry, h.byte⟩

/-- The elements of a matrix elsewhere are those before the stores. -/
theorem Stored.element_eq {A p : ℕ} {f : ℕ → UInt8} (h : Stored vm s A p f)
    (hmap : MappedRange vm mat (4 * (n * n)))
    (hdisj : mat + 4 * (n * n) ≤ A ∨ A + p ≤ mat) (hi : i < n) (hj : j < n) :
    s.element mat n i j = vm.element mat n i j := by
  have hin := element_inside hi hj
  have hfits := hmap.fits
  refine Bytes.getNat_congr fun k hk => ?_
  have hphys : s.phys (mat + 4 * (i * n + j) + k) = vm.phys (mat + 4 * (i * n + j) + k) := by
    unfold Vm.phys
    rw [h.entry]
  show s.mem (s.phys _) = vm.mem (vm.phys _)
  rw [hphys, h.byte _ (by omega) (hmap.mapped _ (by omega) (by omega)), if_neg (by omega)]

section Loops

variable (hmap1 : MappedRange vm mat1 (4 * (n * n))) (hmap2 : MappedRange vm mat2 (4 * (n * n)))
  (hmap : MappedRange vm answer (4 * (n * n)))
  (hdisj1 : mat1 + 4 * (n * n) ≤ answer ∨ answer + 4 * (n * n) ≤ mat1)
  (hdisj2 : mat2 + 4 * (n * n) ≤ answer ∨ answer + 4 * (n * n) ≤ mat2)

include hmap1 hmap2 hmap hdisj1 hdisj2

/-- One round of the loop of `j` stores one element after those that are there. -/
theorem element_stored (μ : Malloc TlbNode) (stack : Bytes) (hi : i < n) (hj : j < n)
    (hlock : s.mutex = false)
    (hs : Stored vm s answer (4 * (i * n + j)) (vm.productByte mat1 mat2 n)) :
    ∃ T c s', dotLoop μ mat1 mat2 n i j n s 0 stack stack 0 = some ({ s with tlb := T }, c) ∧
      putValue μ { s with tlb := T } (elementAddr answer n i j) (Bytes.zero.setNat 0 4 c) 4 =
        some s' ∧ s'.mutex = false ∧
      Stored vm s' answer (4 * (i * n + j) + 4) (vm.productByte mat1 mat2 n) := by
  have hin := element_inside hi hj
  obtain ⟨T, hdot, hagrees⟩ := dotLoop_spec μ n (k := 0) (c := 0) (a := stack) (b := stack)
    hs.pages hs.tlb hlock (hmap1.congr hs.entry) (hmap2.congr hs.entry) hi hj (by omega) (by decide)
  have hproduct : (0 + ∑ l ∈ Finset.range n, s.element mat1 n i (0 + l) *
      s.element mat2 n (0 + l) j) % 2 ^ 32 = vm.product mat1 mat2 n i j := by
    rw [Nat.zero_add, Vm.product]
    congr 1
    refine Finset.sum_congr rfl fun l hl => ?_
    have hl := Finset.mem_range.1 hl
    rw [Nat.zero_add, hs.element_eq hmap1 (by omega) hi hl, hs.element_eq hmap2 (by omega) hl hj]
  rw [hproduct] at hdot
  have hsT := hs.withTlb hagrees
  obtain ⟨s', hput, hlock', hs'⟩ := putValue_spec μ
    (Bytes.zero.setNat 0 4 (vm.product mat1 mat2 n i j)) hsT.pages hsT.tlb hlock
    (show 0 < 4 by decide) ((hmap.congr hsT.entry).sub hin)
  refine ⟨T, _, s', hdot, ?_, hlock', hsT.append (hs'.congr fun k hk => ?_)⟩
  · rw [elementAddr_eq hmap.fits hi hj]
    exact hput
  · rw [productByte_eq hj hk]
    have hdigit := @Bytes.setNat_of_inside Bytes.zero 0 4 (vm.product mat1 mat2 n i j) k hk
    rwa [Nat.zero_add] at hdigit

theorem rowLoop_spec (μ : Malloc TlbNode) (stack : Bytes) (m : ℕ) : ∀ {s : Vm} {j : ℕ}, i < n →
    j + m = n → s.mutex = false →
    Stored vm s answer (4 * (i * n + j)) (vm.productByte mat1 mat2 n) →
    ∃ s', rowLoop μ stack mat1 mat2 n answer i m s j = some s' ∧ s'.mutex = false ∧
      Stored vm s' answer (4 * (i * n + n)) (vm.productByte mat1 mat2 n) := by
  induction m with
  | zero =>
    intro s j hi hj hlock hs
    obtain rfl : j = n := by omega
    exact ⟨s, rfl, hlock, hs⟩
  | succ m ih =>
    intro s j hi hj hlock hs
    obtain ⟨T, c, s', hdot, hput, hlock', hs'⟩ := element_stored hmap1 hmap2 hmap hdisj1 hdisj2 μ
      stack hi (show j < n by omega) hlock hs
    obtain ⟨s'', hrec, hlock'', hs''⟩ := ih hi (show j + 1 + m = n by omega) hlock'
      (by rwa [show 4 * (i * n + (j + 1)) = 4 * (i * n + j) + 4 by omega])
    refine ⟨s'', ?_, hlock'', hs''⟩
    simp only [rowLoop, hdot, hput, Option.bind_eq_bind, Option.bind_some]
    exact hrec

theorem rowsLoop_spec (μ : Malloc TlbNode) (stack : Bytes) (m : ℕ) : ∀ {s : Vm} {i : ℕ},
    i + m = n → s.mutex = false →
    Stored vm s answer (4 * (i * n)) (vm.productByte mat1 mat2 n) →
    ∃ s', rowsLoop μ stack mat1 mat2 n answer m s i = some s' ∧ s'.mutex = false ∧
      Stored vm s' answer (4 * (n * n)) (vm.productByte mat1 mat2 n) := by
  induction m with
  | zero =>
    intro s i hi hlock hs
    obtain rfl : i = n := by omega
    exact ⟨s, rfl, hlock, hs⟩
  | succ m ih =>
    intro s i hi hlock hs
    obtain ⟨s', hrow, hlock', hs'⟩ := rowLoop_spec hmap1 hmap2 hmap hdisj1 hdisj2 μ stack n
      (show i < n by omega) (Nat.zero_add n) hlock hs
    obtain ⟨s'', hrec, hlock'', hs''⟩ := ih (show i + 1 + m = n by omega) hlock'
      (by rw [Nat.succ_mul i n]; exact hs')
    refine ⟨s'', ?_, hlock'', hs''⟩
    simp only [rowsLoop, hrow, Option.bind_eq_bind, Option.bind_some]
    exact hrec

end Loops

/-- **The product.** `mat_mult` returns, the elements of `answer` are those of the product, and no
other virtual byte is changed. -/
theorem mat_mult_spec (μ : Malloc TlbNode) (stack : Bytes) (h : PagesOk vm) (htlb : TlbAgrees vm)
    (hlock : vm.mutex = false) (hmap1 : MappedRange vm mat1 (4 * (n * n)))
    (hmap2 : MappedRange vm mat2 (4 * (n * n))) (hmap : MappedRange vm answer (4 * (n * n)))
    (hdisj1 : mat1 + 4 * (n * n) ≤ answer ∨ answer + 4 * (n * n) ≤ mat1)
    (hdisj2 : mat2 + 4 * (n * n) ≤ answer ∨ answer + 4 * (n * n) ≤ mat2) :
    ∃ vm', matMult μ stack vm mat1 mat2 n answer = some vm' ∧
      (∀ i < n, ∀ j < n, vm'.element answer n i j =
        (∑ k ∈ Finset.range n, vm.element mat1 n i k * vm.element mat2 n k j) % 2 ^ 32) ∧
      (∀ a, vm'.entry a = vm.entry a) ∧
      ∀ a < 2 ^ 32, vm.Mapped a → ¬(answer ≤ a ∧ a < answer + 4 * (n * n)) →
        vm'.virt a = vm.virt a := by
  obtain ⟨vm', hcall, -, hs⟩ := rowsLoop_spec hmap1 hmap2 hmap hdisj1 hdisj2 μ stack n
    (s := vm) (i := 0) (Nat.zero_add n) hlock (by rw [Nat.zero_mul]; exact .none h htlb)
  have hphys : ∀ a, vm'.phys a = vm.phys a := fun a => by
    unfold Vm.phys
    rw [hs.entry]
  refine ⟨vm', hcall, fun i hi j hj => ?_, hs.entry, fun a ha hm hout => ?_⟩
  · have hin := element_inside hi hj
    have hfits := hmap.fits
    have hdigits : vm'.element answer n i j = vm.product mat1 mat2 n i j % 256 ^ 4 :=
      Bytes.getNat_of_digits fun k hk => by
        show vm'.mem (vm'.phys _) = _
        rw [hphys, hs.byte _ (by omega) (hmap.mapped _ (by omega) (by omega)), if_pos (by omega),
          show answer + 4 * (i * n + j) + k - answer = 4 * (i * n + j) + k by omega,
          productByte_eq hj hk]
    rw [hdigits, Vm.product, show 256 ^ 4 = 2 ^ 32 from rfl, Nat.mod_mod]
  · show vm'.mem (vm'.phys a) = vm.mem (vm.phys a)
    rw [hphys, hs.byte a ha hm, if_neg hout]

/-- The numbers from 1 on, as integers of four bytes. -/
def counting : Bytes := fun b => if b % 4 = 0 then .ofNat (b / 4 + 1) else 0

/-- The matrices `1 2 / 3 4` and `5 6 / 7 8` are put into a region and multiplied, with the answer
after them. -/
theorem mat_mult_two : ∃ vm vm₁ vm', tMalloc 4096 Vm.start 48 = some (vm, 0) ∧
    putValue (.bump _) vm 0 counting 32 = some vm₁ ∧
    matMult (.bump _) Bytes.zero vm₁ 0 16 2 32 = some vm' ∧
    vm'.element 32 2 0 0 = 19 ∧ vm'.element 32 2 0 1 = 22 ∧
    vm'.element 32 2 1 0 = 43 ∧ vm'.element 32 2 1 1 = 50 := by
  have hserved : served 4096 Vm.start 48 := by decide +kernel
  have hvalue : ((tMalloc 4096 Vm.start 48).bind fun r =>
      (putValue (.bump _) r.1 r.2 counting 32).map fun vm₁ =>
        (r.2, [vm₁.element 0 2 0 0, vm₁.element 0 2 0 1, vm₁.element 0 2 1 0, vm₁.element 0 2 1 1],
          [vm₁.element 16 2 0 0, vm₁.element 16 2 0 1, vm₁.element 16 2 1 0,
            vm₁.element 16 2 1 1])) = some (0, [1, 2, 3, 4], [5, 6, 7, 8]) := by decide +kernel
  obtain ⟨⟨vm, va⟩, hcall, hvalue⟩ := Option.bind_eq_some_iff.1 hvalue
  obtain ⟨vm₁, hput, hvalue⟩ := Option.map_eq_some_iff.1 hvalue
  simp only [Prod.mk.injEq, List.cons.injEq, and_true] at hvalue
  obtain ⟨rfl, ⟨h00, h01, h10, h11⟩, k00, k01, k10, k11⟩ := hvalue
  obtain ⟨_, p, hp0, hp, hlock, hgrown, -⟩ := tMalloc_spec (.inr ⟨rfl, rfl⟩) (fun _ => by decide)
    (by decide) hserved hcall
  rw [pagesRequired_eq] at hp
  have hregion : MappedRange vm 0 48 :=
    .ofPages hp (by rw [← pagesRequired_eq]; exact hgrown.new) (Nat.le_of_eq hp0.symm)
      (by unfold pgSize; omega)
  obtain ⟨_, hput', hlock₁, hs⟩ := putValue_spec (.bump _) counting
    hgrown.ok.frames.apart.pagesOk hgrown.ok.tlb hlock (by decide)
    (hregion.sub (p := 0) (q := 32) (by decide))
  obtain rfl := Option.some.inj (hput.symm.trans hput')
  have hregion₁ : MappedRange vm₁ 0 48 := hregion.congr hs.entry
  obtain ⟨vm', hmult, hproduct, -⟩ := mat_mult_spec (.bump _) Bytes.zero hs.pages hs.tlb hlock₁
    (hregion₁.sub (p := 0) (q := 4 * (2 * 2)) (by decide))
    (hregion₁.sub (p := 16) (q := 4 * (2 * 2)) (by decide))
    (hregion₁.sub (p := 32) (q := 4 * (2 * 2)) (by decide)) (.inl (by decide)) (.inl (by decide))
  refine ⟨vm, vm₁, vm', hcall, hput, hmult, ?_, ?_, ?_, ?_⟩
  · rw [← Nat.zero_add 32, hproduct 0 (by decide) 0 (by decide)]
    simp [Finset.sum_range_succ, h00, h01, k00, k10]
  · rw [← Nat.zero_add 32, hproduct 0 (by decide) 1 (by decide)]
    simp [Finset.sum_range_succ, h00, h01, k01, k11]
  · rw [← Nat.zero_add 32, hproduct 1 (by decide) 0 (by decide)]
    simp [Finset.sum_range_succ, h10, h11, k00, k10]
  · rw [← Nat.zero_add 32, hproduct 1 (by decide) 1 (by decide)]
    simp [Finset.sum_range_succ, h10, h11, k01, k11]

end UserOS.MyVm
