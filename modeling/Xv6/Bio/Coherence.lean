import Xv6.Bio
import Xv6.Lib.Except

/-!
# The buffer cache over whole runs

In every state a run of `Bsys` reaches, whatever the interleaving of the processes' `bread`,
`log_write`, `bwrite` and `brelse` and of the disk interrupts (`Bsys.Inv`,
`Bsys.inv_of_reachable`):

* every buffer is on the list `bget` scans, and no two buffers cache the same block of a
  device: the only duplicates are buffers that still carry `binit`'s `dev = -1`;
* `B_BUSY` is a lock: a buffer is busy exactly when a process holds it, and no two processes
  hold it;
* a valid buffer that is not dirty holds its block as the disk does.

So the cache stands for a plain block store (`bcache_coherent`). A step panics only in `bget`,
with "no buffers", in `iderw` on a request for disk 1 when `ideinit` did not find it, or in
`idestart` when it starts the disk on a block past the file system; the panics of `iderw` on a
buffer that is not busy or has nothing to do, and those of `bwrite` and `brelse`, are
unreachable.
-/

namespace Xv6

section Bget

variable {c : Bcache} {dev blockno : Nat}

/-- `bget` panics with "no buffers" only. -/
theorem bget_error {e : String} (h : bget c dev blockno = .error e) : e = "bget: no buffers" := by
  rw [bget] at h
  split at h
  · split_ifs at h
  · split at h
    · cases h
    · cases h
      rfl

/-- What `bget` returns: it sleeps on a busy buffer and changes nothing, or it hands out a
buffer that was not busy, marked busy, with its own block or with a block no buffer caches and
nothing valid in it. -/
theorem bget_eq_ok {r : BgetEnd × Bcache} (h : bget c dev blockno = .ok r) :
    (∃ i, r = (.sleep i, c)) ∨
      ∃ i b, (c.buf i).busy = false ∧ b.busy = true ∧ b.blockno = blockno ∧
        r = (.got i, c.set i b) ∧
        (b = { c.buf i with busy := true } ∨ (Uncached c b.dev b.blockno ∧ b.valid = false)) := by
  rw [bget] at h
  split at h
  · rename_i i hi
    split_ifs at h with hb
    · cases h
      have hblk := List.find?_some hi
      simp only [decide_eq_true_eq] at hblk
      exact .inr ⟨i, { c.buf i with busy := true }, by simpa using hb, rfl, hblk.2, rfl, .inl rfl⟩
    · cases h
      exact .inl ⟨i, rfl⟩
  · rename_i hnone
    split at h
    · rename_i i hi
      cases h
      have hfree := List.find?_some hi
      simp only [Bool.and_eq_true, Bool.not_eq_eq_eq_not, Bool.not_true] at hfree
      exact .inr ⟨i, _, hfree.1, rfl, rfl, rfl,
        .inr ⟨fun j hj => by simpa using List.find?_eq_none.1 hnone j hj, rfl⟩⟩
    · cases h

end Bget

namespace Bsys

variable {s s' : Bsys}

/-- What every reachable state of the cache keeps. -/
structure Inv (s : Bsys) : Prop where
  lru : ∀ i, i ∈ s.cache.lru
  coherent : ∀ i j, i ≠ j → (s.cache.buf i).dev = (s.cache.buf j).dev →
    (s.cache.buf i).blockno = (s.cache.buf j).blockno → (s.cache.buf i).dev = 2 ^ 32 - 1
  held_busy : ∀ p i, i ∈ (s.proc p).held → (s.cache.buf i).busy = true
  busy_held : ∀ i, (s.cache.buf i).busy = true → ∃ p, i ∈ (s.proc p).held
  owner : ∀ p q i, i ∈ (s.proc p).held → i ∈ (s.proc q).held → p = q
  nodup : ∀ p, (s.proc p).held.Nodup
  clean : ∀ i, (s.cache.buf i).dev ≠ 2 ^ 32 - 1 → (s.cache.buf i).valid = true →
    (s.cache.buf i).dirty = false →
      (s.cache.buf i).data = s.cache.disk (s.cache.buf i).dev (s.cache.buf i).blockno

theorem inv_boot (data : Fin NBUF → Block) (disk : Nat → Nat → Block) (disk1 : Bool) :
    (boot data disk disk1).Inv where
  lru i := by simp [boot, ideinit, Bcache.binit]
  coherent _ _ _ _ _ := by simp [boot, ideinit, Bcache.binit]
  held_busy _ _ h := by simp [boot] at h
  busy_held _ h := by simp [boot, ideinit, Bcache.binit] at h
  owner _ _ _ h := by simp [boot] at h
  nodup _ := by simp [boot]
  clean _ _ h := by simp [boot, ideinit, Bcache.binit] at h

/-- A step that moves no buffer between processes and changes no buffer's block or `B_BUSY`
keeps the invariant when valid clean buffers still agree with the disk. -/
theorem Inv.of_flags (h : s.Inv) (hheld : ∀ p, (s'.proc p).held = (s.proc p).held)
    (hlru : s'.cache.lru = s.cache.lru) (hdev : ∀ i, (s'.cache.buf i).dev = (s.cache.buf i).dev)
    (hblk : ∀ i, (s'.cache.buf i).blockno = (s.cache.buf i).blockno)
    (hbusy : ∀ i, (s'.cache.buf i).busy = (s.cache.buf i).busy)
    (hclean : ∀ i, (s'.cache.buf i).dev ≠ 2 ^ 32 - 1 → (s'.cache.buf i).valid = true →
      (s'.cache.buf i).dirty = false →
        (s'.cache.buf i).data = s'.cache.disk (s'.cache.buf i).dev (s'.cache.buf i).blockno) :
    s'.Inv where
  lru i := hlru ▸ h.lru i
  coherent i j hij hd hb := by
    rw [hdev] at hd ⊢
    rw [hblk, hblk] at hb
    exact h.coherent i j hij (by rwa [hdev] at hd) hb
  held_busy p i hi := by
    rw [hbusy]
    exact h.held_busy p i (hheld p ▸ hi)
  busy_held i hi := by
    obtain ⟨p, hp⟩ := h.busy_held i (hbusy i ▸ hi)
    exact ⟨p, hheld p ▸ hp⟩
  owner p q i hp hq := h.owner p q i (hheld p ▸ hp) (hheld q ▸ hq)
  nodup p := hheld p ▸ h.nodup p
  clean := hclean

/-- A buffer that is busy is the one a held buffer is, and a free one is held by nobody. -/
theorem Inv.not_held (h : s.Inv) {i : Fin NBUF} (hfree : (s.cache.buf i).busy = false) (p : Fin NPROC) :
    i ∉ (s.proc p).held := fun hi => by
  rw [h.held_busy p i hi] at hfree
  cases hfree

/-- A step that changes one buffer `i` but for its block and `B_BUSY`, and the disk only at
`i`'s block, keeps the invariant when `i` is still clean if it is valid and not dirty. The other
buffers stay clean: a buffer with `i`'s block is one of `binit`'s, by coherence. -/
theorem Inv.update (h : s.Inv) {i : Fin NBUF} {b : Buf} (hheld : ∀ p, (s'.proc p).held = (s.proc p).held)
    (hlru : s'.cache.lru = s.cache.lru) (hbuf : s'.cache.buf = Function.update s.cache.buf i b)
    (hdev : b.dev = (s.cache.buf i).dev) (hblk : b.blockno = (s.cache.buf i).blockno)
    (hbusy : b.busy = (s.cache.buf i).busy)
    (hclean : b.dev ≠ 2 ^ 32 - 1 → b.valid = true → b.dirty = false →
      b.data = s'.cache.disk b.dev b.blockno)
    (hdisk : ∀ dev blockno, (dev ≠ (s.cache.buf i).dev ∨ blockno ≠ (s.cache.buf i).blockno) →
      s'.cache.disk dev blockno = s.cache.disk dev blockno) : s'.Inv := by
  have hself : s'.cache.buf i = b := by rw [hbuf, Function.update_self]
  have hother : ∀ j, j ≠ i → s'.cache.buf j = s.cache.buf j := fun j hj => by
    rw [hbuf, Function.update_of_ne hj]
  -- the same field of every buffer is unchanged, by cases on whether it is `i`
  have hkeep : ∀ f : Buf → Nat ⊕ Bool, f b = f (s.cache.buf i) →
      ∀ j, f (s'.cache.buf j) = f (s.cache.buf j) := by
    intro f hf j
    by_cases hj : j = i
    · subst hj
      rw [hself, hf]
    · rw [hother j hj]
  refine h.of_flags hheld hlru (fun j => Sum.inl.inj (hkeep (Sum.inl ∘ Buf.dev) (by simp [hdev]) j))
    (fun j => Sum.inl.inj (hkeep (Sum.inl ∘ Buf.blockno) (by simp [hblk]) j))
    (fun j => Sum.inr.inj (hkeep (Sum.inr ∘ Buf.busy) (by simp [hbusy]) j)) fun j hd hv hc => ?_
  by_cases hj : j = i
  · subst hj
    rw [hself] at hd hv hc ⊢
    exact hclean hd hv hc
  · rw [hother j hj] at hd hv hc ⊢
    -- no block but `binit`'s is in two buffers, so the disk kept `j`'s block
    have hne : (s.cache.buf j).dev ≠ (s.cache.buf i).dev ∨
        (s.cache.buf j).blockno ≠ (s.cache.buf i).blockno := by
      by_cases hdev : (s.cache.buf j).dev = (s.cache.buf i).dev
      · exact .inr fun hbl => hd (h.coherent j i hj hdev hbl)
      · exact .inl hdev
    rw [hdisk _ _ hne]
    exact h.clean j hd hv hc

theorem held_setProc_wait (s : Bsys) (p : Fin NPROC) (w : Option BWait) (q : Fin NPROC) :
    ((s.setProc p { s.proc p with wait := w }).proc q).held = (s.proc q).held := by
  by_cases hq : q = p
  · subst hq
    simp [setProc]
  · simp [setProc, hq]

/-- Process `p` takes buffer `i`, which was not busy: `i` becomes busy, with its block, or with a
block no buffer caches and nothing valid in it, and joins the buffers `p` holds. -/
theorem Inv.take (h : s.Inv) {p : Fin NPROC} {i : Fin NBUF} {b : Buf} {w : Option BWait}
    (hfree : (s.cache.buf i).busy = false) (hbusy : b.busy = true)
    (hb : b = { s.cache.buf i with busy := true } ∨ (Uncached s.cache b.dev b.blockno ∧ b.valid = false))
    (hbuf : s'.cache.buf = Function.update s.cache.buf i b) (hlru : s'.cache.lru = s.cache.lru)
    (hdisk : s'.cache.disk = s.cache.disk)
    (hproc : s'.proc = Function.update s.proc p ⟨i :: (s.proc p).held, w⟩) : s'.Inv := by
  -- the block `i` now caches is cached by no other buffer, but for `binit`'s duplicates
  have hnew : ∀ k, k ≠ i → b.dev = (s.cache.buf k).dev → b.blockno = (s.cache.buf k).blockno →
      b.dev = 2 ^ 32 - 1 := by
    intro k hk hd hbl
    rcases hb with rfl | ⟨hu, -⟩
    · exact h.coherent i k hk.symm hd hbl
    · exact absurd ⟨hd.symm, hbl.symm⟩ (hu k (h.lru k))
  have hheld : ∀ q, (s'.proc q).held = if q = p then i :: (s.proc p).held else (s.proc q).held := by
    intro q
    rw [hproc]
    by_cases hq : q = p
    · subst hq
      simp
    · simp [hq]
  refine ⟨fun j => hlru ▸ h.lru j, fun j k hjk hd hbl => ?_, fun q j hj => ?_, fun j hj => ?_,
    fun q₁ q₂ j h₁ h₂ => ?_, fun q => ?_, fun j hd hv hc => ?_⟩
  · rw [hbuf] at hd hbl ⊢
    by_cases hj : j = i
    · subst hj
      have hk : k ≠ j := Ne.symm hjk
      simp only [Function.update_self, Function.update_of_ne hk] at hd hbl ⊢
      exact hnew k hk hd hbl
    · by_cases hk : k = i
      · subst hk
        simp only [Function.update_self, Function.update_of_ne hj] at hd hbl ⊢
        rw [hd]
        exact hnew j hj hd.symm hbl.symm
      · simp only [Function.update_of_ne hj, Function.update_of_ne hk] at hd hbl ⊢
        exact h.coherent j k hjk hd hbl
  · rw [hheld] at hj
    rw [hbuf]
    by_cases hji : j = i
    · subst hji
      simpa using hbusy
    · rw [Function.update_of_ne hji]
      split_ifs at hj with hq
      · exact h.held_busy p j ((List.mem_cons.1 hj).resolve_left hji)
      · exact h.held_busy q j hj
  · rw [hbuf] at hj
    by_cases hji : j = i
    · subst hji
      exact ⟨p, by simp [hheld]⟩
    · rw [Function.update_of_ne hji] at hj
      obtain ⟨q, hq⟩ := h.busy_held j hj
      refine ⟨q, ?_⟩
      rw [hheld]
      split_ifs with hqp
      · exact List.mem_cons_of_mem _ (hqp ▸ hq)
      · exact hq
  · rw [hheld] at h₁ h₂
    -- `i` was held by nobody, so only `p` holds it now
    by_cases hji : j = i
    · subst hji
      split_ifs at h₁ h₂ with hq₁ hq₂ hq₂
      · rw [hq₁, hq₂]
      · exact absurd h₂ (h.not_held hfree q₂)
      · exact absurd h₁ (h.not_held hfree q₁)
      · exact absurd h₁ (h.not_held hfree q₁)
    · have hm : ∀ q, j ∈ (if q = p then i :: (s.proc p).held else (s.proc q).held) →
          j ∈ (s.proc q).held := by
        intro q hq
        split_ifs at hq with hqp
        · exact hqp ▸ (List.mem_cons.1 hq).resolve_left hji
        · exact hq
      exact h.owner q₁ q₂ j (hm q₁ h₁) (hm q₂ h₂)
  · rw [hheld]
    split_ifs with hq
    · exact List.nodup_cons.2 ⟨h.not_held hfree p, h.nodup p⟩
    · exact h.nodup q
  · rw [hbuf, hdisk] at *
    by_cases hji : j = i
    · subst hji
      simp only [Function.update_self] at hd hv hc ⊢
      rcases hb with rfl | ⟨-, hinv⟩
      · exact h.clean j hd hv hc
      · rw [hinv] at hv
        cases hv
    · simp only [Function.update_of_ne hji] at hd hv hc ⊢
      exact h.clean j hd hv hc

/-- `bread` and the `bget` it runs again after a wakeup keep the invariant. -/
theorem Inv.breadFor (h : s.Inv) {p : Fin NPROC} {dev blockno : Nat}
    (hs : s.breadFor p dev blockno = .ok s') : s'.Inv := by
  rw [Bsys.breadFor] at hs
  split at hs
  · cases hs
  · -- asleep on a busy buffer: nothing moves but `p`'s wait
    rename_i i c hget
    cases hs
    obtain ⟨j, hr⟩ | ⟨j, b, -, -, -, hr, -⟩ := bget_eq_ok hget
    · cases hr
      exact h.of_flags (held_setProc_wait _ p _) rfl (fun _ => rfl) (fun _ => rfl) (fun _ => rfl)
        h.clean
    · cases hr
  · rename_i i c hget
    obtain ⟨j, hr⟩ | ⟨j, b, hfree, hbusy, -, hr, hb⟩ := bget_eq_ok hget
    · cases hr
    · cases hr
      split_ifs at hs
      · cases hs
        exact h.take hfree hbusy hb rfl rfl rfl rfl
      · split at hs
        · cases hs
        · rename_i c' hrw
          cases hs
          obtain rfl := iderw_eq_ok hrw
          exact h.take hfree hbusy hb rfl rfl rfl rfl

/-- Process `p` releases buffer `i`, which it holds: `i` is no longer busy, goes to the front of
the list and leaves the buffers `p` holds. -/
theorem Inv.release (h : s.Inv) {p : Fin NPROC} {i : Fin NBUF} (hi : i ∈ (s.proc p).held)
    (hbuf : s'.cache.buf = Function.update s.cache.buf i { s.cache.buf i with busy := false })
    (hlru : s'.cache.lru = i :: s.cache.lru.erase i) (hdisk : s'.cache.disk = s.cache.disk)
    (hheld : ∀ q, (s'.proc q).held = if q = p then (s.proc p).held.erase i else (s.proc q).held) :
    s'.Inv := by
  -- every buffer keeps its block, its flags and its data, and only `i` its `B_BUSY`
  have hkeep : ∀ j, (s'.cache.buf j).dev = (s.cache.buf j).dev ∧
      (s'.cache.buf j).blockno = (s.cache.buf j).blockno ∧
      (s'.cache.buf j).valid = (s.cache.buf j).valid ∧ (s'.cache.buf j).dirty = (s.cache.buf j).dirty ∧
      (s'.cache.buf j).data = (s.cache.buf j).data := by
    intro j
    rw [hbuf]
    by_cases hj : j = i
    · subst hj
      simp
    · simp [Function.update_of_ne hj]
  have hother : ∀ j, j ≠ i → s'.cache.buf j = s.cache.buf j := fun j hj => by
    rw [hbuf, Function.update_of_ne hj]
  have hfree : (s'.cache.buf i).busy = false := by
    rw [hbuf]
    simp
  -- the buffers each process holds now are among those it held, and `i` is held by no one
  have hsub : ∀ q j, j ∈ (s'.proc q).held → j ∈ (s.proc q).held ∧ j ≠ i := by
    intro q j hj
    rw [hheld] at hj
    split_ifs at hj with hq
    · subst hq
      exact ⟨List.mem_of_mem_erase hj, ((h.nodup q).mem_erase_iff.1 hj).1⟩
    · refine ⟨hj, ?_⟩
      rintro rfl
      exact hq (h.owner q p j hj hi)
  refine ⟨fun j => ?_, fun j k hjk hd hbl => ?_, fun q j hj => ?_, fun j hj => ?_,
    fun q₁ q₂ j h₁ h₂ => h.owner q₁ q₂ j (hsub q₁ j h₁).1 (hsub q₂ j h₂).1, fun q => ?_,
    fun j hd hv hc => ?_⟩
  · rw [hlru]
    by_cases hji : j = i
    · subst hji
      exact List.mem_cons_self
    · exact List.mem_cons_of_mem _ ((List.mem_erase_of_ne hji).2 (h.lru j))
  · rw [(hkeep j).1, (hkeep k).1] at hd
    rw [(hkeep j).2.1, (hkeep k).2.1] at hbl
    rw [(hkeep j).1]
    exact h.coherent j k hjk hd hbl
  · obtain ⟨hj', hji⟩ := hsub q j hj
    rw [hother j hji]
    exact h.held_busy q j hj'
  · have hji : j ≠ i := by
      rintro rfl
      rw [hfree] at hj
      cases hj
    rw [hother j hji] at hj
    obtain ⟨q, hq⟩ := h.busy_held j hj
    refine ⟨q, ?_⟩
    rw [hheld]
    split_ifs with hqp
    · subst hqp
      exact (List.mem_erase_of_ne hji).2 hq
    · exact hq
  · rw [hheld]
    split_ifs with hq
    · exact (h.nodup p).erase i
    · exact h.nodup q
  · obtain ⟨h₁, h₂, h₃, h₄, h₅⟩ := hkeep j
    rw [h₁, h₂, h₅, hdisk]
    exact h.clean j (h₁ ▸ hd) (h₃ ▸ hv) (h₄ ▸ hc)

/-- `brelse(b)` by the process that holds `b` keeps the invariant. -/
theorem Inv.brelse (h : s.Inv) {p : Fin NPROC} {i : Fin NBUF} {c : Bcache} (hi : i ∈ (s.proc p).held)
    (hc : Xv6.brelse s.cache i = .ok c) :
    ((⟨c, s.proc⟩ : Bsys).setProc p { s.proc p with held := (s.proc p).held.erase i }).Inv := by
  rw [Xv6.brelse] at hc
  split_ifs at hc
  cases hc
  refine h.release hi rfl rfl rfl fun q => ?_
  by_cases hq : q = p
  · subst hq
    simp [setProc]
  · simp [setProc, hq]

/-- The disk completing a request keeps the invariant: the buffer at the head of the queue is
clean afterwards, written to the disk or read from it. -/
theorem Inv.ideDone (h : s.Inv) : ({ s with cache := Xv6.ideDone s.cache } : Bsys).Inv := by
  unfold Xv6.ideDone
  split
  · exact h
  · rename_i i rest _
    dsimp only
    split_ifs with hdirty
    · -- a write: the disk takes the buffer's data at its block
      refine h.update (i := i) (fun _ => rfl) rfl rfl rfl rfl rfl (fun _ _ _ => by simp)
        fun dev blockno hne => ?_
      rcases hne with hne | hne
      · simp [Function.update_of_ne hne]
      · by_cases hdev : dev = (s.cache.buf i).dev
        · subst hdev
          simp [Function.update_of_ne hne]
        · simp [Function.update_of_ne hdev]
    · -- a read: the buffer takes the disk's data at its block
      exact h.update (i := i) (fun _ => rfl) rfl rfl rfl rfl rfl (fun _ _ _ => rfl)
        fun _ _ _ => rfl

/-- Marking a buffer dirty, by `log_write` or `bwrite`, keeps the invariant. -/
theorem Inv.dirty (h : s.Inv) {i : Fin NBUF} (hheld : ∀ p, (s'.proc p).held = (s.proc p).held)
    (hlru : s'.cache.lru = s.cache.lru)
    (hbuf : s'.cache.buf = Function.update s.cache.buf i { s.cache.buf i with dirty := true })
    (hdisk : s'.cache.disk = s.cache.disk) : s'.Inv :=
  h.update hheld hlru hbuf rfl rfl rfl (fun _ _ hc => by cases hc) fun _ _ _ => by rw [hdisk]

theorem bwrite_eq_ok {c c' : Bcache} {i : Fin NBUF} (h : Xv6.bwrite c i = .ok c') :
    c' = { c.set i { c.buf i with dirty := true } with
      idequeue := (c.set i { c.buf i with dirty := true }).idequeue ++ [i] } := by
  rw [Xv6.bwrite] at h
  split_ifs at h
  exact iderw_eq_ok h

/-- Every step keeps the invariant. -/
theorem Inv.step (h : s.Inv) {a : BAct} (hs : s.step a = some (.ok s')) : s'.Inv := by
  cases a with
  | bread p dev blockno =>
    rw [Bsys.step] at hs
    split_ifs at hs
    exact h.breadFor (Option.some.inj hs)
  | retry p =>
    rw [Bsys.step] at hs
    split at hs
    · exact h.breadFor (Option.some.inj hs)
    · cases hs
  | done p =>
    rw [Bsys.step] at hs
    split at hs
    · split_ifs at hs
      cases hs
      exact h.of_flags (held_setProc_wait _ p _) rfl (fun _ => rfl) (fun _ => rfl) (fun _ => rfl)
        h.clean
    · cases hs
  | logWrite p i =>
    rw [Bsys.step] at hs
    split_ifs at hs
    cases hs
    exact h.dirty (fun _ => rfl) rfl rfl rfl
  | bwrite p i =>
    rw [Bsys.step] at hs
    split_ifs at hs
    obtain ⟨c, hc, rfl⟩ := Except.map_eq_ok_iff.1 (Option.some.inj hs)
    rw [bwrite_eq_ok hc]
    exact h.dirty (held_setProc_wait _ p _) rfl rfl rfl
  | brelse p i =>
    rw [Bsys.step] at hs
    split_ifs at hs with hw
    obtain ⟨c, hc, rfl⟩ := Except.map_eq_ok_iff.1 (Option.some.inj hs)
    exact h.brelse hw.2 hc
  | ideintr =>
    rw [Bsys.step] at hs
    obtain ⟨c, hc, rfl⟩ := Except.map_eq_ok_iff.1 (Option.some.inj hs)
    rw [ideintr_eq_ok hc]
    exact h.ideDone

theorem inv_of_reachable (h : BReachable s) : s.Inv := by
  induction h with
  | boot data disk disk1 => exact inv_boot data disk disk1
  | step a _ hs ih => exact ih.step hs

/-- `bread` and its retry panic only in `bget`, with "no buffers", or in the `iderw` of the read:
on disk 1 when there is none, or when it starts the disk on the block asked for, past the file
system. -/
theorem breadFor_error {p : Fin NPROC} {dev blockno : Nat} {e : String}
    (hs : s.breadFor p dev blockno = .error e) :
    e = "bget: no buffers" ∨ (e = "iderw: ide disk 1 not present" ∧ s.cache.havedisk1 = false) ∨
      (e = "incorrect blockno" ∧ FSSIZE ≤ blockno) := by
  rw [Bsys.breadFor] at hs
  split at hs
  · cases hs
    exact .inl (bget_error (by assumption))
  · cases hs
  · rename_i i c hget
    obtain ⟨j, hr⟩ | ⟨j, b, -, hbusy, hblk, hr, -⟩ := bget_eq_ok hget
    · cases hr
    · cases hr
      split_ifs at hs with hv
      split at hs
      · rename_i hrw
        cases hs
        rw [Bcache.set_buf_self] at hv
        -- the buffer `bget` handed out is busy, not valid, and carries the block asked for
        rcases iderw_error (by simpa using hbusy) (.inl (by simpa using hv)) hrw with he | he
        · exact .inr (.inl (by simpa using he))
        · exact .inr (.inr (by simpa [hblk] using he))
      · cases hs

/-- The step asks the disk for a block past the file system: a `bread` of one, the retry of
such a `bread`, a `bwrite` of a buffer that holds one, or a disk interrupt with one queued. -/
def PastFs (s : Bsys) : BAct → Prop
  | .bread _ _ blockno => FSSIZE ≤ blockno
  | .retry p => ∃ dev blockno, (s.proc p).wait = some (.bget dev blockno) ∧ FSSIZE ≤ blockno
  | .bwrite _ i => FSSIZE ≤ (s.cache.buf i).blockno
  | .ideintr => ∃ j ∈ s.cache.idequeue, FSSIZE ≤ (s.cache.buf j).blockno
  | _ => False

/-- In a state with the invariant, a step panics only with "no buffers", with "ide disk 1 not
present" when there is no disk 1, or with "incorrect blockno" when it asks the disk for a block
past the file system: a process uses only buffers it holds, and those are busy. -/
theorem Inv.step_error (h : s.Inv) {a : BAct} {e : String} (hs : s.step a = some (.error e)) :
    e = "bget: no buffers" ∨ (e = "iderw: ide disk 1 not present" ∧ s.cache.havedisk1 = false) ∨
      (e = "incorrect blockno" ∧ s.PastFs a) := by
  cases a with
  | bread p dev blockno =>
    rw [Bsys.step] at hs
    split_ifs at hs
    exact breadFor_error (Option.some.inj hs)
  | retry p =>
    rw [Bsys.step] at hs
    split at hs
    · rename_i dev blockno hw
      rcases breadFor_error (Option.some.inj hs) with he | he | ⟨he, hb⟩
      · exact .inl he
      · exact .inr (.inl he)
      · exact .inr (.inr ⟨he, dev, blockno, hw, hb⟩)
    · cases hs
  | done p =>
    rw [Bsys.step] at hs
    split at hs
    · split_ifs at hs
      cases hs
    · cases hs
  | logWrite p i =>
    rw [Bsys.step] at hs
    split_ifs at hs
    cases hs
  | bwrite p i =>
    rw [Bsys.step] at hs
    split_ifs at hs with hw
    have hb := h.held_busy p i hw.2
    have hc := Except.map_eq_error_iff.1 (Option.some.inj hs)
    rw [Xv6.bwrite, if_neg (by simp [hb])] at hc
    -- `bwrite` runs `iderw` on the held buffer, marked dirty
    rcases iderw_error (by simpa using hb) (.inr (by simp)) hc with he | he
    · exact .inr (.inl (by simpa using he))
    · exact .inr (.inr (by simpa [PastFs] using he))
  | brelse p i =>
    rw [Bsys.step] at hs
    split_ifs at hs with hw
    have hb := h.held_busy p i hw.2
    simp [Xv6.brelse, hb, Except.map] at hs
  | ideintr =>
    rw [Bsys.step] at hs
    obtain ⟨he, j, hj, hb⟩ := ideintr_error (Except.map_eq_error_iff.1 (Option.some.inj hs))
    exact .inr (.inr ⟨he, j, hj, hb⟩)

end Bsys

end Xv6
