import Kiya.Db.Operations

/-!
# Pages

`Paginate` counts the rows, and then reads the page with a limit and an offset. The window of a page
is the positions from its offset on, as many as its limit. The windows of the pages up to `LastPage`
partition the positions of the rows. The offset of a page is a product of two 64-bit integers, which
wraps for large page numbers: behind the last page, it can be negative, or the offset of a page with
rows on it. So every page behind the last one is empty only if there are no rows, or one per page.
-/

namespace Kiya

open Builder Option

namespace Builder

/-- The builder with which `Paginate` reads the rows of a page; without rows it reads none. -/
def pageQuery (b : Builder) (total page perPage : Int) : Option Builder :=
  if total = 0 then none
  else some (b.applyScope.pageBuilder (normalPage page) (normalPerPage perPage))

/-- The positions between the offset and the end that the limit sets. -/
def window (b : Builder) : Set ℤ := {i | ∃ o ∈ b.offset, ∃ n ∈ b.limit, o ≤ i ∧ i < o + n}

/-- The positions that a page asks for. -/
def pageWindow (b : Builder) (total perPage page : Int) : Set ℤ :=
  {i | ∃ c ∈ b.pageQuery total page perPage, i ∈ c.window}

/-- The numbers of the pages that have rows on them. -/
def pageNumbers (total perPage : Int) : Set ℤ := Set.Icc 1 (lastPage total (normalPerPage perPage))

/-- The windows of the pages are disjoint, and cover the positions of the rows. -/
structure Partition (b : Builder) (total perPage : Int) : Prop where
  disjoint : (pageNumbers total perPage).PairwiseDisjoint (b.pageWindow total perPage)
  cover : (⋃ p ∈ pageNumbers total perPage, b.pageWindow total perPage p) ∩ Set.Iio total =
    Set.Ico 0 total

/-- Every page behind the last one starts behind the rows. -/
def EmptyBehind (b : Builder) (total perPage : Int) : Prop :=
  ∀ page : Int, -2 ^ 63 ≤ page → page < 2 ^ 63 →
    lastPage total (normalPerPage perPage) < normalPage page →
    ∀ c ∈ b.pageQuery total page perPage, ∀ o ∈ c.offset, 0 ≤ o ∧ total ≤ o

/-- **`Paginate` reads a page with its builder**, after it has counted the rows. -/
theorem paginate_eq (b : Builder) (dest : Any) (page perPage : Int) :
    b.paginate dest page perPage = (do
      let total ← b.count
      let p : Pagination := ⟨total, normalPage page, normalPerPage perPage,
        lastPage total (normalPerPage perPage)⟩
      match b.pageQuery total page perPage with
      | none => return p
      | some c =>
        let _ ← c.findAll (some dest)
        return p) := by
  refine congrArg (bind b.count) (funext fun total => ?_)
  by_cases htotal : total = 0
  · simp only [pageQuery, if_pos htotal]
  · simp only [pageQuery, if_neg htotal]

/-! ### Arithmetic -/

section Arithmetic

variable {total page perPage n p : Int}

theorem wrapInt_of_lt (h₀ : 0 ≤ n) (h : n < 2 ^ 63) : wrapInt 64 n = n := by
  have hmod : n % 2 ^ 64 = n := Int.emod_eq_of_lt h₀ (by omega)
  rw [wrapInt, hmod]
  exact if_pos h

/-- The first products that do not fit are negative. -/
theorem wrapInt_neg (h₀ : 2 ^ 63 ≤ n) (h : n < 2 ^ 64) : wrapInt 64 n < 0 := by
  have hmod : n % 2 ^ 64 = n := Int.emod_eq_of_lt (by omega) h
  rw [wrapInt, hmod]
  have hnot : ¬ n < 2 ^ (64 - 1) := by omega
  simp only [if_neg hnot]
  omega

theorem normalPerPage_mem : normalPerPage perPage ∈ Set.Icc 1 100 := by
  dsimp only [normalPerPage]
  constructor <;> split_ifs <;> omega

theorem normalPerPage_eq_one_iff : normalPerPage perPage = 1 ↔ perPage = 1 := by
  dsimp only [normalPerPage]
  split_ifs <;> omega

theorem normalPage_of_pos (h : 1 ≤ page) : normalPage page = page := if_neg (not_lt.mpr h)

/-- A page has rows on it if its offset is a position of a row. -/
theorem le_lastPage_iff (h₀ : 0 ≤ total) (h : total ≤ 2 ^ 62) (hn : n ∈ Set.Icc 1 100) :
    p ≤ lastPage total n ↔ (p - 1) * n < total := by
  obtain ⟨hpos, hle⟩ := hn
  rw [lastPage, wrapInt_of_lt (by omega) (by omega), Int.tdiv_eq_ediv_of_nonneg (by omega),
    Int.le_ediv_iff_mul_le (by omega), sub_mul, one_mul]
  constructor <;> intro hlt <;> omega

end Arithmetic

/-! ### Windows -/

section Windows

variable {b : Builder} {total page perPage p : Int}

theorem mem_pageQuery {c : Builder} (hc : c ∈ b.pageQuery total page perPage) :
    total ≠ 0 ∧ c.limit = some (normalPerPage perPage) ∧
      c.offset = some (wrapInt 64 ((normalPage page - 1) * normalPerPage perPage)) := by
  rw [mem_def, pageQuery] at hc
  by_cases htotal : total = 0
  · rw [if_pos htotal] at hc
    cases hc
  · rw [if_neg htotal] at hc
    obtain rfl := some_inj.mp hc
    exact ⟨htotal, rfl, rfl⟩

/-- The window of a page that has rows on it. -/
theorem pageWindow_of_mem (h₀ : 0 ≤ total) (h : total ≤ 2 ^ 62)
    (hp : p ∈ pageNumbers total perPage) : b.pageWindow total perPage p =
      Set.Ico ((p - 1) * normalPerPage perPage) (p * normalPerPage perPage) := by
  have hn := @normalPerPage_mem perPage
  obtain ⟨hpos, hle⟩ := hp
  have hlt := (le_lastPage_iff h₀ h hn).mp hle
  have hoffset : 0 ≤ (p - 1) * normalPerPage perPage :=
    mul_nonneg (sub_nonneg.mpr hpos) (zero_le_one.trans hn.1)
  have hwrap := wrapInt_of_lt hoffset (by omega)
  have hend : (p - 1) * normalPerPage perPage + normalPerPage perPage =
      p * normalPerPage perPage := by ring
  ext i
  constructor
  · rintro ⟨c, hc, o, ho, n, hlimit, hi⟩
    obtain ⟨-, hl, hof⟩ := mem_pageQuery hc
    rw [normalPage_of_pos hpos, hwrap] at hof
    obtain rfl : _ = o := some_inj.mp (hof.symm.trans ho)
    obtain rfl : _ = n := some_inj.mp (hl.symm.trans hlimit)
    rwa [hend] at hi
  · intro hi
    have htotal : total ≠ 0 := by omega
    refine ⟨_, (if_neg htotal : b.pageQuery total p perPage = some _), _, rfl, _, rfl, ?_⟩
    rwa [normalPage_of_pos hpos, hwrap, hend]

/-- **The pages partition the rows.** -/
theorem partition (h₀ : 0 ≤ total) (h : total ≤ 2 ^ 62) : b.Partition total perPage := by
  have hn := @normalPerPage_mem perPage
  have hnpos : 0 < normalPerPage perPage := hn.1
  constructor
  · intro p hp q hq hne
    simp only [Function.onFun, pageWindow_of_mem h₀ h hp, pageWindow_of_mem h₀ h hq]
    rw [Set.Ico_disjoint_Ico]
    rcases lt_or_gt_of_ne hne with hlt | hlt
    · have hle := Int.mul_le_mul_of_nonneg_right (Int.le_sub_one_of_lt hlt) hnpos.le
      exact (min_le_left _ _).trans (hle.trans (le_max_right _ _))
    · have hle := Int.mul_le_mul_of_nonneg_right (Int.le_sub_one_of_lt hlt) hnpos.le
      exact (min_le_right _ _).trans (hle.trans (le_max_left _ _))
  · ext i
    simp only [Set.mem_inter_iff, Set.mem_iUnion, exists_prop, Set.mem_Iio, Set.mem_Ico]
    refine and_congr_left fun hi => ⟨?_, fun hi₀ => ?_⟩
    · rintro ⟨p, hp, hmem⟩
      rw [pageWindow_of_mem h₀ h hp] at hmem
      exact (mul_nonneg (sub_nonneg.mpr hp.1) hnpos.le).trans hmem.1
    · -- the page of a position is its quotient by the page size
      have hdiv := Int.ediv_mul_le i hnpos.ne'
      have hrest := Int.lt_ediv_add_one_mul_self i hnpos
      have hoffset : (i / normalPerPage perPage + 1 - 1) * normalPerPage perPage ≤ i := by
        rwa [add_sub_cancel_right]
      have hp : i / normalPerPage perPage + 1 ∈ pageNumbers total perPage := by
        refine ⟨?_, (le_lastPage_iff h₀ h hn).mpr (hoffset.trans_lt hi)⟩
        have hquot := Int.ediv_nonneg hi₀ hnpos.le
        omega
      refine ⟨_, hp, ?_⟩
      rw [pageWindow_of_mem h₀ h hp]
      exact ⟨hoffset, hrest⟩

/-- One row on a page: the offset of a page is one less than its number. -/
theorem emptyBehind_one (h₀ : 0 ≤ total) (h : total ≤ 2 ^ 62) : b.EmptyBehind total 1 := by
  intro page _ hmax hlast c hc o ho
  have hone : normalPerPage 1 = 1 := rfl
  have hn := @normalPerPage_mem 1
  obtain ⟨-, -, hoffset⟩ := mem_pageQuery hc
  obtain rfl : _ = o := some_inj.mp (hoffset.symm.trans ho)
  have hbehind := (le_lastPage_iff h₀ h hn).not.mp (not_le.mpr hlast)
  have hpos : 1 ≤ normalPage page ∧ normalPage page < 2 ^ 63 := by
    unfold normalPage
    constructor <;> split_ifs <;> omega
  rw [hone, mul_one] at hbehind ⊢
  rw [wrapInt_of_lt (by omega) (by omega)]
  exact ⟨by omega, not_lt.mp hbehind⟩

/-- Several rows on a page: the offset of some page is past the largest integer. -/
theorem not_emptyBehind (h₀ : 0 < total) (h : total ≤ 2 ^ 62) (hone : normalPerPage perPage ≠ 1) :
    ¬ b.EmptyBehind total perPage := by
  intro hempty
  have hn := @normalPerPage_mem perPage
  obtain ⟨hpos, hle⟩ := id hn
  -- the smallest multiple of the page size that does not fit
  obtain ⟨k, hk⟩ : ∃ k, k = (2 ^ 63 + normalPerPage perPage - 1) / normalPerPage perPage := ⟨_, rfl⟩
  have hbelow : k * normalPerPage perPage ≤ 2 ^ 63 + normalPerPage perPage - 1 := by
    rw [hk]
    exact Int.ediv_mul_le _ (by omega)
  have habove : 2 ^ 63 + normalPerPage perPage - 1 < (k + 1) * normalPerPage perPage := by
    rw [hk]
    exact Int.lt_ediv_add_one_mul_self _ (by omega)
  rw [add_mul, one_mul] at habove
  have hkpos : 0 < k := by
    by_contra hneg
    have := mul_nonpos_of_nonpos_of_nonneg (not_lt.mp hneg) (zero_le_one.trans hpos)
    omega
  have hksmall : 2 * k ≤ k * normalPerPage perPage := by
    rw [mul_comm]
    exact Int.mul_le_mul_of_nonneg_left (by omega) hkpos.le
  have hpage : normalPage (k + 1) = k + 1 := normalPage_of_pos (by omega)
  have hlast : lastPage total (normalPerPage perPage) < normalPage (k + 1) := by
    rw [hpage, ← not_le, le_lastPage_iff h₀.le h hn, add_sub_cancel_right]
    omega
  have hoffset := (hempty (k + 1) (by omega) (by omega) hlast _
    (if_neg h₀.ne' : b.pageQuery total (k + 1) perPage = some _) _ rfl).1
  rw [hpage, add_sub_cancel_right] at hoffset
  exact absurd (wrapInt_neg (by omega) (by omega)) (not_lt.mpr hoffset)

end Windows

end Builder

/-- **The pages of a result.** They partition the rows, and every page behind the last one is empty
if and only if there are no rows, or one row per page. -/
theorem pages_partition_iff (b : Builder) (total perPage : Int) (h₀ : 0 ≤ total)
    (h : total ≤ 2 ^ 62) :
    b.Partition total perPage ∧ b.EmptyBehind total perPage ↔ total = 0 ∨ perPage = 1 := by
  constructor
  · rintro ⟨-, hempty⟩
    by_contra hcond
    rw [not_or] at hcond
    obtain ⟨htotal, hone⟩ := hcond
    exact not_emptyBehind (lt_of_le_of_ne h₀ (Ne.symm htotal)) h
      (normalPerPage_eq_one_iff.not.mpr hone) hempty
  · intro hcond
    refine ⟨partition h₀ h, ?_⟩
    rcases hcond with rfl | rfl
    · intro page _ _ _ c hc
      exact absurd rfl (mem_pageQuery hc).1
    · exact emptyBehind_one h₀ h

/-- Three rows, one on each page. -/
theorem singlePages_partition :
    Partition { table := "notes" } 3 1 ∧ EmptyBehind { table := "notes" } 3 1 :=
  (pages_partition_iff { table := "notes" } 3 1 (by decide) (by decide)).mpr (.inr rfl)

/-- Three rows, four to a page: far behind the only page, the first page is read again. -/
theorem farPage_not_empty :
    lastPage 3 (normalPerPage 4) = 1 ∧
    (pageQuery { table := "notes" } 3 4611686018427387905 4).map (·.offset) =
      some (some 0) ∧
    ¬ EmptyBehind { table := "notes" } 3 4 := by
  refine ⟨by decide, by decide, fun hempty => ?_⟩
  have hbad := hempty 4611686018427387905 (by decide) (by decide) (by decide) _ rfl 0 (by decide)
  exact absurd hbad.2 (by decide)

end Kiya
