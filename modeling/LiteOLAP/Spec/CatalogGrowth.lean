import LiteOLAP.Spec.CatalogChainCorrect

/-!
# The size of the file under repeated `Persist`

`Persist` reuses the chain that it finds from page 0 on, and writes as many pages as the body takes.
A shorter body ends the chain at its last page, so that the pages behind it belong to no chain any
more; a longer body after that takes new ones.

## Key results

- `Catalog.persistSizes_yields`: the sizes of the file are those that the chain's lengths give
- `Catalog.growth_eq_iff`: they are the least possible exactly where no body grows past a cut chain
- `Catalog.persistSizes_iff`: so no page is leaked exactly there
-/

namespace LiteOLAP

namespace Catalog

open DiskManager

/-! ## Sizes -/

/-- Calls of `Persist` one after the other, with the number of pages after each. -/
def persistSizes : List Bytes → EStateM Exc DiskManager (List Nat)
  | [] => pure []
  | body :: bodies => do
    persistBody body
    let d ← MonadState.get
    let sizes ← persistSizes bodies
    pure (d.numPages :: sizes)

/-- After each body, the most pages that a body so far takes, where `most` is the most before. -/
def mostPages : (most : Nat) → List Bytes → List Nat
  | _, [] => []
  | most, body :: bodies => max most (pagesFor body) :: mostPages (max most (pagesFor body)) bodies

/-- A body takes more pages than the one before it only if no body so far took more than that one:
    `last` pages are on the chain, and `most` in the file. -/
def NoRegrowth : (most last : Nat) → List Bytes → Prop
  | _, _, [] => True
  | most, last, body :: bodies =>
    (pagesFor body ≤ last ∨ last = most) ∧ NoRegrowth (max most (pagesFor body)) (pagesFor body) bodies

/-- The sizes of a file of `size` pages, `last` of which are on the chain: only the pages that the
    chain is short of are added. -/
def growth : (size last : Nat) → List Bytes → List Nat
  | _, _, [] => []
  | size, last, body :: bodies =>
    (size + (pagesFor body - last)) :: growth (size + (pagesFor body - last)) (pagesFor body) bodies

/-- The same sizes up to the first at which page numbers run out. -/
def Agree : List Nat → List Nat → Prop
  | [], [] => True
  | m :: ms, n :: ns => m = n ∧ (m < 2 ^ 32 → Agree ms ns)
  | _, _ => False

theorem Agree.eq {ms ns : List Nat} (h : Agree ms ns) (hsmall : ∀ m ∈ ms, m < 2 ^ 32) : ms = ns := by
  induction ms generalizing ns with
  | nil =>
    cases ns with
    | nil => rfl
    | cons n ns => exact h.elim
  | cons m ms ih =>
    cases ns with
    | nil => exact h.elim
    | cons n ns =>
      obtain ⟨rfl, hrest⟩ := h
      rw [ih (hrest (hsmall m List.mem_cons_self)) fun k hk => hsmall k (List.mem_cons_of_mem _ hk)]

theorem Agree.symm {ms ns : List Nat} (h : Agree ms ns) : Agree ns ms := by
  induction ms generalizing ns with
  | nil =>
    cases ns with
    | nil => trivial
    | cons n ns => exact h.elim
  | cons m ms ih =>
    cases ns with
    | nil => exact h.elim
    | cons n ns =>
      obtain ⟨rfl, hrest⟩ := h
      exact ⟨rfl, fun hroom => ih (hrest hroom)⟩

/-- The chain behind a `Persist` has the pages of its body. -/
theorem chain_after {d : DiskManager} {chain : List PageId} {body : Bytes} {pages : List Page}
    (hholds : Holds pages ((fullChain d chain body).take (pagesFor body)) body) :
    CatalogChain pages ((fullChain d chain body).take (pagesFor body)) ∧
      ((fullChain d chain body).take (pagesFor body)).length = pagesFor body := by
  obtain ⟨page, hpage, htype⟩ := hholds.catalog
  have hlen := pagesFor_le_fullChain d chain body
  exact ⟨.linked hpage htype hholds.links, by rw [List.length_take]; omega⟩

/-- The file grows as the lengths of its chain say. -/
theorem persistSizes_agree {d d' : DiskManager} {chain : List PageId}
    (h : CatalogChain d.pages chain) {bodies : List Bytes} {sizes : List Nat}
    (hrun : persistSizes bodies d = .ok sizes d') :
    Agree sizes (growth d.numPages chain.length bodies) := by
  induction bodies generalizing d chain sizes with
  | nil =>
    cases hrun
    trivial
  | cons body bodies ih =>
    rw [persistSizes, EStateM.bind_apply] at hrun
    cases hfirst : persistBody body d with
    | error e d₁ => simp [hfirst] at hrun
    | ok u d₁ =>
      rw [hfirst] at hrun
      dsimp only at hrun
      obtain ⟨hlength, hpost⟩ := (persistBody_holds h body).ok hfirst
      change (persistSizes bodies >>= fun sizes => pure (d₁.numPages :: sizes)) d₁ = _ at hrun
      rw [EStateM.bind_apply] at hrun
      cases hrest : persistSizes bodies d₁ with
      | error e d₂ => simp [hrest] at hrun
      | ok rest d₂ =>
        rw [hrest] at hrun
        cases hrun
        refine ⟨hlength, fun hroom => ?_⟩
        obtain ⟨hchain, hlen⟩ := chain_after (hpost hroom).1
        have hagree := ih hchain hrest
        rwa [hlen, DiskManager.numPages, hlength] at hagree

/-- While page numbers last, every call returns unless an operation of the file fails. -/
theorem persistSizes_yields {d : DiskManager} {chain : List PageId} (h : CatalogChain d.pages chain)
    {bodies : List Bytes} (hroom : ∀ size ∈ growth d.numPages chain.length bodies, size < 2 ^ 32) :
    Yields d (persistSizes bodies) fun sizes _ =>
      sizes = growth d.numPages chain.length bodies := by
  induction bodies generalizing d chain with
  | nil => exact yields_pure rfl
  | cons body bodies ih =>
    rw [persistSizes]
    refine (persistBody_holds h body).bind fun _ d₁ hpost => Yields.get ?_
    obtain ⟨hlength, hpost⟩ := hpost
    have hsize : d₁.numPages = d.numPages + (pagesFor body - chain.length) := hlength
    obtain ⟨hchain, hlen⟩ := chain_after (hpost (by
      rw [hlength]
      exact hroom _ List.mem_cons_self)).1
    have hrest := ih hchain fun size hmem => hroom size (by
      rw [hlen, hsize] at hmem
      exact List.mem_cons_of_mem _ hmem)
    refine hrest.bind fun sizes d₂ hsizes => yields_pure ?_
    rw [hsizes, hsize, hlen]
    rfl

/-- Pages are only ever added for a body that takes more than all before it, exactly where no body
    grows past a chain that was cut. -/
theorem growth_eq_iff {most last : Nat} (hle : last ≤ most) (bodies : List Bytes) :
    growth most last bodies = mostPages most bodies ↔ NoRegrowth most last bodies := by
  induction bodies generalizing most last with
  | nil => simp [growth, mostPages, NoRegrowth]
  | cons body bodies ih =>
    rw [growth, mostPages, NoRegrowth, List.cons.injEq]
    have hhead : most + (pagesFor body - last) = max most (pagesFor body) ↔
        pagesFor body ≤ last ∨ last = most := by omega
    rw [← hhead]
    refine and_congr_right fun heq => ?_
    rw [heq]
    exact ih (Nat.le_max_right _ _)

/-- The file has one page at first, and every body takes at least one. -/
theorem mostPages_one (bodies : List Bytes) : mostPages 1 bodies = mostPages 0 bodies := by
  cases bodies with
  | nil => rfl
  | cons body bodies =>
    have hpos := pagesFor_pos body
    have hmax : max 1 (pagesFor body) = max 0 (pagesFor body) := by omega
    rw [mostPages, mostPages, hmax]

theorem mem_mostPages {most n m : Nat} {bodies : List Bytes} (hmost : most < n)
    (hbodies : ∀ body ∈ bodies, pagesFor body < n) (hm : m ∈ mostPages most bodies) : m < n := by
  induction bodies generalizing most with
  | nil => simp [mostPages] at hm
  | cons body bodies ih =>
    have hbody := hbodies body List.mem_cons_self
    have hmax : max most (pagesFor body) < n := by omega
    rcases List.mem_cons.1 hm with rfl | hm
    · exact hmax
    · exact ih hmax (fun b hb => hbodies b (List.mem_cons_of_mem _ hb)) hm

/-- On a new and reliable file every call returns. -/
theorem persistSizes_reliable {bodies : List Bytes} {sizes : List Nat}
    (hsizes : growth 1 1 bodies = sizes) (hroom : ∀ size ∈ sizes, size < 2 ^ 32) :
    ∃ d, persistSizes bodies ⟨[.zero], []⟩ = .ok sizes d := by
  have hfresh : CatalogChain [Page.zero] [0] := .fresh rfl (by decide)
  rw [← hsizes] at hroom
  have hyields : Yields ⟨[.zero], []⟩ (persistSizes bodies) fun r _ => r = growth 1 1 bodies :=
    persistSizes_yields (d := ⟨[.zero], []⟩) hfresh hroom
  obtain ⟨r, pages, hrun, rfl⟩ := hyields.reliable rfl
  rw [hsizes] at hrun
  exact ⟨_, hrun⟩

/-- On a new file, the number of pages after every call is the most that a body so far takes,
    exactly where no body grows past a chain that a shorter one has cut. -/
theorem persistSizes_iff {faults : List Bool} {bodies : List Bytes} {sizes : List Nat}
    {d : DiskManager} (hbodies : ∀ body ∈ bodies, pagesFor body < 2 ^ 32)
    (hrun : persistSizes bodies ⟨[.zero], faults⟩ = .ok sizes d) :
    sizes = mostPages 0 bodies ↔ NoRegrowth 1 1 bodies := by
  have hfresh : CatalogChain [Page.zero] [0] := .fresh rfl (by decide)
  have hagree : Agree sizes (growth 1 1 bodies) :=
    persistSizes_agree (d := ⟨[.zero], faults⟩) hfresh hrun
  have hsmall : ∀ m ∈ mostPages 1 bodies, m < 2 ^ 32 := fun m hm =>
    mem_mostPages (Nat.one_lt_two_pow (by decide)) hbodies hm
  rw [← mostPages_one, ← growth_eq_iff (Nat.le_refl 1)]
  constructor
  · rintro rfl
    exact (hagree.eq hsmall).symm
  · intro hgrowth
    rw [hgrowth] at hagree
    exact (hagree.symm.eq hsmall).symm

theorem pagesFor_nil : pagesFor [] = 1 := rfl

/-- Bodies that grow and then shrink. -/
theorem persistSizes_iff_shrinking :
    ∃ d, persistSizes [twoPageBody, []] ⟨[.zero], []⟩ = .ok [2, 2] d ∧
      ([2, 2] = mostPages 0 [twoPageBody, []] ↔ NoRegrowth 1 1 [twoPageBody, []]) := by
  have hsizes : growth 1 1 [twoPageBody, []] = [2, 2] := by
    simp [growth, pagesFor_twoPageBody, pagesFor_nil]
  obtain ⟨d, hrun⟩ := persistSizes_reliable hsizes (by simp)
  refine ⟨d, hrun, persistSizes_iff (fun body hmem => ?_) hrun⟩
  simp only [List.mem_cons, List.not_mem_nil, or_false] at hmem
  rcases hmem with rfl | rfl
  · rw [pagesFor_twoPageBody]
    norm_num
  · rw [pagesFor_nil]
    norm_num

/-- A body of two pages, a short one, and the one of two pages again: the second page is lost. -/
theorem persistSizes_leaks :
    ∃ d, persistSizes [twoPageBody, [], twoPageBody] ⟨[.zero], []⟩ = .ok [2, 2, 3] d ∧
      [2, 2, 3] ≠ mostPages 0 [twoPageBody, [], twoPageBody] := by
  have hsizes : growth 1 1 [twoPageBody, [], twoPageBody] = [2, 2, 3] := by
    simp [growth, pagesFor_twoPageBody, pagesFor_nil]
  obtain ⟨d, hrun⟩ := persistSizes_reliable hsizes (by simp)
  exact ⟨d, hrun, by simp [mostPages, pagesFor_twoPageBody, pagesFor_nil]⟩

end Catalog

end LiteOLAP
