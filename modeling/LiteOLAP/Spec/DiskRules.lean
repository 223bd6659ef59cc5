import LiteOLAP.Native.DiskManager

/-!
# Rules for programs that use the file

`Yields d x post` says that a run of `x` on the file `d` ends as `post` says, unless an
operation of the file system fails on the way. The rules take a program apart into its reads,
writes and allocations; what holds of a run that returned, and that a run on a reliable file
returns, both follow.

## Key results

- `Yields.bind`: the rule for a sequence
- `yields_readPage`, `yields_writePage`, `yields_allocatePage`: the rules for the operations
- `Yields.ok`, `Yields.reliable`: what the judgement says of a run
-/

namespace LiteOLAP.DiskManager

open Bytes (ofAscii)

variable {α β : Type} {d : DiskManager}

/-- A run on `d` gives a result and pages that satisfy `post`, unless some operation fails. A
    reliable file stays reliable. -/
def Yields (d : DiskManager) (x : EStateM Exc DiskManager α) (post : α → List Page → Prop) :
    Prop :=
  match x d with
  | .ok a d' => post a d'.pages ∧ (d.faults = [] → d'.faults = [])
  | .error _ _ => d.faults ≠ []

/-- What a run that returned has done. -/
theorem Yields.ok {x : EStateM Exc DiskManager α} {post : α → List Page → Prop}
    (h : Yields d x post) {a : α} {d' : DiskManager} (hrun : x d = .ok a d') :
    post a d'.pages := by
  rw [Yields, hrun] at h
  exact h.1

/-- On a reliable file the run returns. -/
theorem Yields.reliable {x : EStateM Exc DiskManager α} {post : α → List Page → Prop}
    (h : Yields d x post) (hd : d.faults = []) :
    ∃ a pages, x d = .ok a ⟨pages, []⟩ ∧ post a pages := by
  rw [Yields] at h
  cases hrun : x d with
  | error e d' =>
    rw [hrun] at h
    exact absurd hd h
  | ok a d' =>
    rw [hrun] at h
    obtain ⟨pages, faults⟩ := d'
    obtain rfl : faults = [] := h.2 hd
    exact ⟨a, pages, rfl, h.1⟩

theorem Yields.mono {x : EStateM Exc DiskManager α} {post post' : α → List Page → Prop}
    (h : Yields d x post) (himp : ∀ a pages, post a pages → post' a pages) :
    Yields d x post' := by
  rw [Yields] at h ⊢
  cases hrun : x d with
  | ok a d' =>
    rw [hrun] at h
    exact ⟨himp a _ h.1, h.2⟩
  | error e d' =>
    rw [hrun] at h
    exact h

theorem yields_pure {a : α} {post : α → List Page → Prop} (h : post a d.pages) :
    Yields d (pure a) post :=
  ⟨h, fun hd => hd⟩

theorem yields_ofExcept_ok {a : α} :
    Yields d (EStateM.ofExcept (.ok a)) fun r pages => r = a ∧ pages = d.pages :=
  ⟨⟨rfl, rfl⟩, fun hd => hd⟩

/-- A sequence goes on from whatever file its first step may leave. -/
theorem Yields.bind {x : EStateM Exc DiskManager α} {f : α → EStateM Exc DiskManager β}
    {mid : α → List Page → Prop} {post : β → List Page → Prop} (hx : Yields d x mid)
    (hf : ∀ a d', mid a d'.pages → Yields d' (f a) post) : Yields d (x >>= f) post := by
  rw [Yields] at hx
  rw [Yields, EStateM.bind_apply]
  cases hrun : x d with
  | error e d' =>
    rw [hrun] at hx
    exact hx
  | ok a d' =>
    rw [hrun] at hx
    have hnext := hf a d' hx.1
    rw [Yields] at hnext
    cases hrun' : f a d' with
    | ok b d'' =>
      simp only [hrun'] at hnext ⊢
      exact ⟨hnext.1, fun hd => hnext.2 (hx.2 hd)⟩
    | error e d'' =>
      simp only [hrun'] at hnext ⊢
      exact fun hd => hnext (hx.2 hd)

theorem Yields.get {f : DiskManager → EStateM Exc DiskManager β} {post : β → List Page → Prop}
    (h : Yields d (f d) post) : Yields d (MonadState.get >>= f) post := h

/-! ## The operations -/

theorem yields_io (what : Bytes) : Yields d (io what) fun _ pages => pages = d.pages := by
  rcases io_cases what d with ⟨fs, hio, hfs⟩ | ⟨fs, hio, hne⟩
  · rw [Yields, hio]
    exact ⟨rfl, hfs⟩
  · rw [Yields, hio]
    exact hne

theorem yields_readPage {pid : PageId} {page : Page} (hpage : d.pages[pid.toNat]? = some page) :
    Yields d (readPage pid) fun p pages => p = page ∧ pages = d.pages := by
  refine Yields.get ?_
  simp only [hpage]
  exact (yields_io _).bind fun _ d' hpages => yields_pure ⟨rfl, hpages⟩

theorem yields_writePage {pid : PageId} (hpid : pid.toNat < d.numPages) (page : Page) :
    Yields d (writePage pid page) fun _ pages => pages = d.pages.set pid.toNat page := by
  refine Yields.get ?_
  rw [if_neg (Nat.not_le.mpr hpid)]
  refine (yields_io _).bind fun _ d' hpages => ?_
  exact ⟨congrArg (fun pages : List Page => pages.set pid.toNat page) hpages, fun hd => hd⟩

theorem yields_allocatePage :
    Yields d allocatePage fun pid pages =>
      pid = UInt32.ofNat d.numPages ∧ pages = d.pages ++ [.zero] := by
  refine Yields.get ?_
  refine (yields_io _).bind fun _ d' hpages => ?_
  exact ⟨⟨rfl, congrArg (· ++ [Page.zero]) hpages⟩, fun hd => hd⟩

/-! ## The number of pages only grows -/

/-- The file has fewer pages than there are page numbers. -/
def Roomy (d : DiskManager) : Prop := d.numPages < 2 ^ 32

theorem numPages_io (what : Bytes) (d : DiskManager) :
    (io what d).state.numPages = d.numPages := by
  rcases io_cases what d with ⟨fs, hio, -⟩ | ⟨fs, hio, -⟩ <;> rw [hio] <;> rfl

theorem staysOver_io (what : Bytes) : EStateM.StaysOver Roomy (io what) := by
  intro d hlim
  rwa [Roomy, numPages_io] at hlim

theorem staysOver_readPage (pid : PageId) : EStateM.StaysOver Roomy (readPage pid) := by
  refine EStateM.staysOver_get.bind fun d => ?_
  split
  · exact EStateM.staysOver_throw _
  · exact (staysOver_io _).bind fun _ => EStateM.staysOver_pure _

theorem staysOver_writePage (pid : PageId) (page : Page) :
    EStateM.StaysOver Roomy (writePage pid page) := by
  refine EStateM.staysOver_get.bind fun d => EStateM.StaysOver.ite (EStateM.staysOver_throw _) ?_
  refine (staysOver_io _).bind fun _ d' hlim => ?_
  simpa [Roomy, DiskManager.numPages] using hlim

theorem staysOver_allocatePage : EStateM.StaysOver Roomy allocatePage := by
  refine EStateM.staysOver_get.bind fun d => (staysOver_io _).bind fun _ => ?_
  refine EStateM.StaysOver.bind (fun d' hlim => ?_) fun _ => EStateM.staysOver_pure _
  have hlim : (d'.pages ++ [Page.zero]).length < 2 ^ 32 := hlim
  rw [List.length_append] at hlim
  exact Nat.lt_of_le_of_lt (Nat.le_add_right _ _) hlim

end LiteOLAP.DiskManager
