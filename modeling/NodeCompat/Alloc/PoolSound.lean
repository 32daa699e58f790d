import NodeCompat.Alloc.Pool

/-!
# Blocks do not overlap

The invariant of the allocator over any history: the chunks are apart and in the table, a bump range and the blocks carved
out of a chunk share it without overlap, and what has been carved for a class is held by the program or is in the free list of
that class (`Pool.Ok`). From it `Pool.Sound` in every state that can be reached (`pool_sound`).
-/

namespace NodeCompat.Alloc

open List Function

open Memory

namespace Pool

theorem Apart.symm {a n b m : Nat} (h : Apart a n b m) : Apart b m a n := Or.symm h

theorem Apart.mono {a n b m a' n' b' m' : Nat} (h : Apart a n b m) (ha : a ≤ a') (hn : a' + n' ≤ a + n) (hb : b ≤ b')
    (hm : b' + m' ≤ b + m) : Apart a' n' b' m' := by
  unfold Apart at *; omega

theorem of_pairwise {α : Type} {R : α → α → Prop} (hR : ∀ a b, R a b → R b a) {l : List α} (h : l.Pairwise R) {a b : α}
    (ha : a ∈ l) (hb : b ∈ l) (hne : a ≠ b) : R a b := by
  have : Std.Symm R := ⟨hR⟩
  exact h.forall ha hb hne

theorem Apart.ne {a n b m : Nat} (h : Apart a n b m) (hn : 0 < n) (hm : 0 < m) : a ≠ b := by
  unfold Apart at h; omega

theorem room_pos (b : Block) : 0 < b.room := by
  unfold Block.room
  split
  · exact Nat.lt_of_lt_of_le Nat.zero_lt_one (Nat.le_max_right _ _)
  · next h =>
    have hg : kGranule = 16 := rfl; rw [hg]; omega

theorem room_pooled {b : Block} (h : b.klass ≠ 0) : b.room = b.klass * kGranule := if_neg h

/-- The chunk has a base that is aligned, and a class. -/
structure ChunkOk (c : Nat × Nat) : Prop where
  aligned : kChunkSize ∣ c.1
  base : c.1 ≠ 0
  top : c.1 + kChunkSize ≤ 2 ^ 64
  one : 1 ≤ c.2
  count : c.2 ≤ kClassCount

/-- The block has been carved out of a chunk of its class. -/
def Inside (chunks : List (Nat × Nat)) (a k : Nat) : Prop :=
  ∃ c, (c, k) ∈ chunks ∧ c ≤ a ∧ a + k * kGranule ≤ c + kChunkSize

/-- The bump range of a class is the rest of a chunk of the class, and nothing has been carved out of it. -/
def BumpOk (s : Pool) (k : Nat) : Prop :=
  ∃ c, (c, k) ∈ s.chunks ∧ s.bumpEnd (k - 1) = c + kChunkSize ∧ c ≤ s.bump (k - 1) ∧ s.bump (k - 1) ≤ c + kChunkSize ∧
    ∀ d ∈ s.carved, Apart d.1 (d.2 * kGranule) (s.bump (k - 1)) (c + kChunkSize - s.bump (k - 1))

/-- The chunks and the table. -/
structure ChunksOk (s : Pool) : Prop where
  chunk : ∀ c ∈ s.chunks, ChunkOk c
  apart : s.chunks.Pairwise fun c d => Apart c.1 kChunkSize d.1 kChunkSize
  registered : Registered s.table s.chunks
  any : s.anyChunk = false → s.chunks = []
  cache : s.lastClass ≠ 0 → (s.lastBase, s.lastClass) ∈ s.chunks

/-- The blocks of the pool, with the free list of each class. -/
structure BlocksOk (s : Pool) (lists : Nat → List Nat) : Prop where
  bump : ∀ k, 1 ≤ k → k ≤ kClassCount → s.bump (k - 1) ≠ 0 → s.BumpOk k
  inside : ∀ d ∈ s.carved, 1 ≤ d.2 ∧ Inside s.chunks d.1 d.2
  carved : s.carved.Pairwise fun c d => Apart c.1 (c.2 * kGranule) d.1 (d.2 * kGranule)
  live : s.live.Pairwise fun b c => Apart b.addr b.room c.addr c.room
  fits : ∀ b ∈ s.live, b.size ≤ b.room
  pooled : ∀ b ∈ s.live, b.klass ≠ 0 → (b.addr, b.klass) ∈ s.carved
  malloc : ∀ b ∈ s.live, b.klass = 0 → b.addr ≠ 0 ∧ ∀ c ∈ s.chunks, Apart b.addr b.room c.1 kChunkSize
  chain : ∀ k, 1 ≤ k → k ≤ kClassCount → Chain kPointer s.mem (s.free (k - 1)) (lists k)
  nodup : ∀ k, 1 ≤ k → k ≤ kClassCount → (lists k).Nodup
  listed : ∀ k, 1 ≤ k → k ≤ kClassCount → ∀ a ∈ lists k, (a, k) ∈ s.carved ∧
    ∀ b ∈ s.live, Apart a (k * kGranule) b.addr b.room

structure Ok (s : Pool) : Prop where
  chunks : s.ChunksOk
  blocks : ∃ lists, s.BlocksOk lists

variable {s : Pool} {lists : Nat → List Nat} {k : Nat}

theorem ok_init : ({} : Pool).Ok where
  chunks :=
    { chunk := by rintro c ⟨⟩
      apart := .nil
      registered := ⟨fun slot h => absurd rfl h, by rintro c ⟨⟩⟩
      any := fun _ => rfl
      cache := fun h => absurd rfl h }
  blocks :=
    ⟨fun _ => [],
      { bump := fun k _ _ h => absurd rfl h
        inside := by rintro d ⟨⟩
        carved := .nil
        live := .nil
        fits := by rintro b ⟨⟩
        pooled := by rintro b ⟨⟩
        malloc := by rintro b ⟨⟩
        chain := fun _ _ _ => rfl
        nodup := fun _ _ _ => .nil
        listed := by rintro k _ _ a ⟨⟩ }⟩

/-! ## Chunks -/

namespace ChunksOk

theorem eq_of_base (h : s.ChunksOk) {c k k' : Nat} (hc : (c, k) ∈ s.chunks) (hc' : (c, k') ∈ s.chunks) : k = k' := by
  by_contra hne
  have hapart := of_pairwise (fun _ _ hd => Apart.symm hd) h.apart hc hc' fun heq => hne (Prod.mk.inj heq).2
  exact Apart.ne hapart (by decide) (by decide) rfl

theorem baseOf_inside {c a : Nat} (hc : kChunkSize ∣ c) (h₁ : c ≤ a) (h₂ : a < c + kChunkSize) : baseOf a = c := by
  have hsize : kChunkSize = 2 ^ 20 := by decide
  rw [hsize] at hc h₂; rw [baseOf_eq]; omega

theorem base_mem (h : s.ChunksOk) {a k : Nat} (h₁ : 1 ≤ k) (hin : Inside s.chunks a k) : (baseOf a, k) ∈ s.chunks := by
  obtain ⟨c, hc, hle, htop⟩ := hin
  have hg : kGranule = 16 := rfl
  have hbase : baseOf a = c := by
    refine baseOf_inside (h.chunk _ hc).aligned hle ?_
    rw [hg] at htop; omega
  rw [hbase]; exact hc

theorem classify_pooled (h : s.ChunksOk) {a k : Nat} (h₁ : 1 ≤ k) (hin : Inside s.chunks a k) : s.classify a = k := by
  have hc := h.base_mem h₁ hin
  unfold classify
  split
  · next hany =>
    rw [h.any (by simpa using hany)] at hc; cases hc
  · split
    · next hcache =>
      have hlast := h.cache hcache.2; rw [← hcache.1] at hlast; exact h.eq_of_base hlast hc
    · have hfound := h.registered.lookup hc (h.chunk _ hc).count; exact hfound

theorem classify_malloc (h : s.ChunksOk) {a n : Nat} (hn : 0 < n) (hapart : ∀ c ∈ s.chunks, Apart a n c.1 kChunkSize) :
    s.classify a = 0 := by
  have hbase : ∀ c ∈ s.chunks, baseOf a ≠ c.1 := by
    intro c hc heq
    have hap := hapart c hc
    have hsize : kChunkSize = 2 ^ 20 := by decide
    rw [baseOf_eq] at heq
    unfold Apart at hap; rw [hsize] at hap; omega
  unfold classify
  split
  · rfl
  · split
    · next hcache => exact absurd hcache.1 (hbase _ (h.cache hcache.2))
    · refine h.registered.lookup_other fun c hc heq => hbase c hc ?_
      have halign : kChunkSize ∣ baseOf a := by
        have hsize : kChunkSize = 2 ^ 20 := by decide
        rw [baseOf_eq, hsize]; exact Nat.dvd_mul_left _ _
      exact (keyOf_inj (h.chunk c hc).aligned halign heq).symm

end ChunksOk

/-! ## Blocks of the pool -/

namespace BlocksOk

section

variable (h : s.BlocksOk lists)
include h

theorem carved_pos {d : Nat × Nat} (hd : d ∈ s.carved) : 0 < d.2 * kGranule :=
  Nat.mul_pos (h.inside d hd).1 (by decide)

theorem carved_once {a k k' : Nat} (hk : (a, k) ∈ s.carved) (hk' : (a, k') ∈ s.carved) : k = k' := by
  by_contra hne
  have hapart := of_pairwise (fun _ _ hd => Apart.symm hd) h.carved hk hk' fun heq => hne (Prod.mk.inj heq).2
  exact Apart.ne hapart (h.carved_pos hk) (h.carved_pos hk') rfl

theorem carved_malloc {d : Nat × Nat} (hd : d ∈ s.carved) {b : Block} (hb : b ∈ s.live)
    (hk : b.klass = 0) : Apart d.1 (d.2 * kGranule) b.addr b.room := by
  obtain ⟨-, c, hc, hle, htop⟩ := h.inside d hd
  exact (Apart.symm ((h.malloc b hb hk).2 _ hc)).mono hle htop (Nat.le_refl _) (Nat.le_refl _)

/-- A free block is not the bump range of its chunk, nor anything else that has been carved. -/
theorem carved_live {d : Nat × Nat} (hd : d ∈ s.carved) {b : Block} (hb : b ∈ s.live)
    (hne : d.1 ≠ b.addr) : Apart d.1 (d.2 * kGranule) b.addr b.room := by
  by_cases hk : b.klass = 0
  · exact h.carved_malloc hd hb hk
  · have hapart := of_pairwise (fun _ _ hd => Apart.symm hd) h.carved hd (h.pooled b hb hk)
      fun heq => hne (congrArg Prod.fst heq)
    rw [room_pooled hk]; exact hapart

end

end BlocksOk

theorem le_klassOf {size : Nat} (hs : size < 2 ^ 64) (h₁ : 1 ≤ klassOf size) : size ≤ klassOf size * kGranule := by
  have hg : kGranule = 16 := rfl
  unfold klassOf at h₁ ⊢; rw [hg] at h₁ ⊢; omega

theorem BlocksOk.pop (h : s.BlocksOk lists) {size : Nat} (hs : size ≤ k * kGranule) (h₁ : 1 ≤ k) (hk : k ≤ kClassCount)
    (hfree : s.free (k - 1) ≠ 0) : ∃ lists', (s.pop k size).BlocksOk lists' := by
  have hchain := h.chain k h₁ hk
  have hnodup := h.nodup k h₁ hk
  have hlisted := h.listed k h₁ hk
  cases hl : lists k with
  | nil => rw [hl] at hchain; exact absurd hchain hfree
  | cons a rest =>
    rw [hl] at hchain hnodup hlisted
    obtain ⟨ha, -, hrest⟩ := hchain
    obtain ⟨hcarved, hlive⟩ := hlisted a mem_cons_self
    have hk₀ : k ≠ 0 := by omega
    have hroom : (⟨a, size, k⟩ : Block).room = k * kGranule := room_pooled hk₀
    have hother : ∀ k', 1 ≤ k' → k' ≤ kClassCount → ∀ a' ∈ Function.update lists k rest k', a' ∈ lists k' ∧ a' ≠ a := by
      intro k' h₁' hk' a' ha'
      by_cases heq : k' = k
      · subst heq
        rw [update_self] at ha'
        rw [hl]; exact ⟨mem_cons_of_mem _ ha', fun hc => (nodup_cons.1 hnodup).1 (hc ▸ ha')⟩
      · rw [update_of_ne heq] at ha'
        refine ⟨ha', fun hc => heq ?_⟩
        exact h.carved_once (hc ▸ (h.listed k' h₁' hk' a' ha').1) hcarved
    refine ⟨Function.update lists k rest, ?_⟩
    unfold Pool.pop
    rw [ha]
    constructor
    · exact h.bump
    · exact h.inside
    · exact h.carved
    · refine pairwise_cons.2 ⟨fun b hb => ?_, h.live⟩
      rw [hroom]; exact hlive b hb
    · rintro b (_ | ⟨_, hb⟩)
      · rw [hroom]; exact hs
      · exact h.fits b hb
    · rintro b (_ | ⟨_, hb⟩) hne
      · exact hcarved
      · exact h.pooled b hb hne
    · rintro b (_ | ⟨_, hb⟩) h₀
      · exact absurd h₀ hk₀
      · exact h.malloc b hb h₀
    · intro k' h₁' hk'
      by_cases heq : k' = k
      · subst heq
        dsimp only; rw [update_self, update_self, ← ha]; exact hrest
      · have hidx : k' - 1 ≠ k - 1 := by omega
        dsimp only; rw [update_of_ne heq, update_of_ne hidx]; exact h.chain k' h₁' hk'
    · intro k' h₁' hk'
      by_cases heq : k' = k
      · subst heq; rw [update_self]; exact (nodup_cons.1 hnodup).2
      · rw [update_of_ne heq]; exact h.nodup k' h₁' hk'
    · intro k' h₁' hk' a' ha'
      obtain ⟨hin, hne⟩ := hother k' h₁' hk' a' ha'
      obtain ⟨hc', hl'⟩ := h.listed k' h₁' hk' a' hin
      refine ⟨hc', ?_⟩
      rintro b (_ | ⟨_, hb⟩)
      · rw [hroom]
        exact of_pairwise (fun _ _ hd => Apart.symm hd) h.carved hc' hcarved fun heq => hne (congrArg Prod.fst heq)
      · exact hl' b hb

theorem BlocksOk.malloc_step (h : s.BlocksOk lists) {size block : Nat} (hne : block ≠ 0)
    (hchunks : ∀ c ∈ s.chunks, Apart block (max size 1) c.1 kChunkSize)
    (hlive : ∀ b ∈ s.live, b.klass = 0 → Apart block (max size 1) b.addr b.room) :
    (s.malloc size block).BlocksOk lists := by
  have hroom : (⟨block, size, 0⟩ : Block).room = max size 1 := rfl
  have hcarved : ∀ d ∈ s.carved, Apart d.1 (d.2 * kGranule) block (max size 1) := by
    intro d hd
    obtain ⟨-, c, hc, hle, htop⟩ := h.inside d hd
    exact (Apart.symm (hchunks _ hc)).mono hle htop (Nat.le_refl _) (Nat.le_refl _)
  constructor
  · exact h.bump
  · exact h.inside
  · exact h.carved
  · refine pairwise_cons.2 ⟨fun b hb => ?_, h.live⟩
    rw [hroom]
    by_cases hk : b.klass = 0
    · exact hlive b hb hk
    · rw [room_pooled hk]; exact Apart.symm (hcarved _ (h.pooled b hb hk))
  · rintro b (_ | ⟨_, hb⟩)
    · exact Nat.le_max_left _ _
    · exact h.fits b hb
  · rintro b (_ | ⟨_, hb⟩) hk
    · exact absurd rfl hk
    · exact h.pooled b hb hk
  · rintro b (_ | ⟨_, hb⟩) hk
    · exact ⟨hne, hchunks⟩
    · exact h.malloc b hb hk
  · exact h.chain
  · exact h.nodup
  · intro k' h₁' hk' a' ha'
    obtain ⟨hc', hl'⟩ := h.listed k' h₁' hk' a' ha'
    refine ⟨hc', ?_⟩
    rintro b (_ | ⟨_, hb⟩)
    · exact hcarved _ hc'
    · exact hl' b hb

theorem BlocksOk.carve (hc : s.ChunksOk) (h : s.BlocksOk lists) {size : Nat} (hs : size ≤ k * kGranule) (h₁ : 1 ≤ k)
    (hk : k ≤ kClassCount) (hroom : s.hasRoom k = true) : (s.carve k size).BlocksOk lists := by
  unfold hasRoom at hroom
  rw [Bool.and_eq_true, decide_eq_true_iff, decide_eq_true_iff] at hroom
  obtain ⟨hne, hfits⟩ := hroom
  obtain ⟨c, hin, hend, hle, htop, hfree⟩ := h.bump k h₁ hk hne
  rw [hend] at hfits
  have hk₀ : k ≠ 0 := by omega
  have hspan : (⟨s.bump (k - 1), size, k⟩ : Block).room = k * kGranule := room_pooled hk₀
  have hblock : s.bump (k - 1) + k * kGranule ≤ c + kChunkSize := by omega
  have hnew : ∀ d ∈ s.carved, Apart d.1 (d.2 * kGranule) (s.bump (k - 1)) (k * kGranule) := by
    intro d hd; exact (hfree d hd).mono (Nat.le_refl _) (Nat.le_refl _) (Nat.le_refl _) (by omega)
  unfold Pool.carve
  constructor
  · intro k' h₁' hk' hne'
    by_cases heq : k' = k
    · subst heq
      refine ⟨c, hin, hend, ?_, ?_, ?_⟩
      · dsimp only; rw [update_self]; omega
      · dsimp only; rw [update_self]; omega
      · dsimp only
        rw [update_self]
        rintro d (_ | ⟨_, hd⟩)
        · exact .inl (Nat.le_refl _)
        · exact (hfree d hd).mono (Nat.le_refl _) (Nat.le_refl _) (Nat.le_add_right _ _) (by omega)
    · have hidx : k' - 1 ≠ k - 1 := by omega
      dsimp only at hne'
      rw [update_of_ne hidx] at hne'
      obtain ⟨c', hin', hend', hle', htop', hfree'⟩ := h.bump k' h₁' hk' hne'
      refine ⟨c', hin', hend', ?_, ?_, ?_⟩
      · dsimp only; rw [update_of_ne hidx]; exact hle'
      · dsimp only; rw [update_of_ne hidx]; exact htop'
      · dsimp only
        rw [update_of_ne hidx]
        rintro d (_ | ⟨_, hd⟩)
        · have hapart := of_pairwise (fun _ _ hd => Apart.symm hd) hc.apart hin hin' fun he => heq (Prod.mk.inj he).2.symm
          exact hapart.mono hle hblock hle' (by omega)
        · exact hfree' d hd
  · rintro d (_ | ⟨_, hd⟩)
    · exact ⟨h₁, c, hin, hle, hblock⟩
    · exact h.inside d hd
  · exact pairwise_cons.2 ⟨fun d hd => Apart.symm (hnew d hd), h.carved⟩
  · refine pairwise_cons.2 ⟨fun b hb => ?_, h.live⟩
    rw [hspan]
    by_cases hb₀ : b.klass = 0
    · exact (Apart.symm ((h.malloc b hb hb₀).2 _ hin)).mono hle hblock (Nat.le_refl _) (Nat.le_refl _)
    · rw [room_pooled hb₀]; exact Apart.symm (hnew _ (h.pooled b hb hb₀))
  · rintro b (_ | ⟨_, hb⟩)
    · rw [hspan]; exact hs
    · exact h.fits b hb
  · rintro b (_ | ⟨_, hb⟩) hb₀
    · exact mem_cons_self
    · exact mem_cons_of_mem _ (h.pooled b hb hb₀)
  · rintro b (_ | ⟨_, hb⟩) hb₀
    · exact absurd hb₀ hk₀
    · exact h.malloc b hb hb₀
  · exact h.chain
  · exact h.nodup
  · intro k' h₁' hk' a' ha'
    obtain ⟨hc', hl'⟩ := h.listed k' h₁' hk' a' ha'
    refine ⟨mem_cons_of_mem _ hc', ?_⟩
    rintro b (_ | ⟨_, hb⟩)
    · rw [hspan]; exact hnew _ hc'
    · exact hl' b hb

/-- What the system has to answer for a chunk. -/
structure NewChunk (s : Pool) (chunk : Nat) : Prop where
  aligned : kChunkSize ∣ chunk
  top : chunk + kChunkSize ≤ 2 ^ 64
  chunks : ∀ c ∈ s.chunks, Apart chunk kChunkSize c.1 kChunkSize
  malloc : ∀ b ∈ s.live, b.klass = 0 → Apart chunk kChunkSize b.addr b.room

theorem Ok.refill (h : s.Ok) (chunk : Nat) (h₁ : 1 ≤ k) (hk : k ≤ kClassCount) (hnew : chunk ≠ 0 → s.NewChunk chunk) :
    (s.refill k chunk).Ok := by
  unfold Pool.refill
  split
  · exact h
  · next hchunk =>
    have hn := hnew hchunk
    split
    · next table hreg =>
      obtain ⟨hc, lists, hb⟩ := h
      have hkeys : ∀ c ∈ s.chunks, keyOf c.1 ≠ keyOf chunk := by
        intro c hin heq
        have hsame := keyOf_inj (hc.chunk c hin).aligned hn.aligned heq
        exact Apart.ne (hn.chunks c hin) (by decide) (by decide) hsame.symm
      have hcarved : ∀ d ∈ s.carved, Apart d.1 (d.2 * kGranule) chunk kChunkSize := by
        intro d hd
        obtain ⟨-, c, hin, hle, htop⟩ := hb.inside d hd
        exact (Apart.symm (hn.chunks _ hin)).mono hle htop (Nat.le_refl _) (Nat.le_refl _)
      constructor
      · constructor
        · rintro c (_ | ⟨_, hin⟩)
          · exact ⟨hn.aligned, hchunk, hn.top, h₁, hk⟩
          · exact hc.chunk c hin
        · exact pairwise_cons.2 ⟨hn.chunks, hc.apart⟩
        · exact hc.registered.register hreg hkeys h₁ hk
        · rintro ⟨⟩
        · exact fun hl => mem_cons_of_mem _ (hc.cache hl)
      · refine ⟨lists, ?_⟩
        constructor
        · intro k' h₁' hk' hne'
          by_cases heq : k' = k
          · subst heq
            refine ⟨chunk, mem_cons_self, ?_, ?_, ?_, ?_⟩
            · dsimp only; rw [update_self]
            · exact Nat.le_of_eq (update_self (k' - 1) chunk s.bump).symm
            · dsimp only; rw [update_self]; exact Nat.le_add_right _ _
            · dsimp only; rw [update_self, Nat.add_sub_cancel_left]; exact hcarved
          · have hidx : k' - 1 ≠ k - 1 := by omega
            dsimp only at hne'
            rw [update_of_ne hidx] at hne'
            obtain ⟨c', hin', hend', hle', htop', hfree'⟩ := hb.bump k' h₁' hk' hne'
            refine ⟨c', mem_cons_of_mem _ hin', ?_⟩
            dsimp only
            rw [update_of_ne hidx, update_of_ne hidx]; exact ⟨hend', hle', htop', hfree'⟩
        · intro d hd
          obtain ⟨hone, c, hin, hle, htop⟩ := hb.inside d hd
          exact ⟨hone, c, mem_cons_of_mem _ hin, hle, htop⟩
        · exact hb.carved
        · exact hb.live
        · exact hb.fits
        · exact hb.pooled
        · intro b hin hb₀
          obtain ⟨hne, hapart⟩ := hb.malloc b hin hb₀
          refine ⟨hne, ?_⟩
          rintro c (_ | ⟨_, hc'⟩)
          · exact Apart.symm (hn.malloc b hin hb₀)
          · exact hapart c hc'
        · exact hb.chain
        · exact hb.nodup
        · exact hb.listed
    · exact h

/-! ## release -/

theorem BlocksOk.drop (h : s.BlocksOk lists) (ptr : Nat) :
    ({ s with live := s.live.filter (·.addr ≠ ptr) } : Pool).BlocksOk lists where
  bump := h.bump
  inside := h.inside
  carved := h.carved
  live := h.live.filter _
  fits b hb := h.fits b (mem_filter.1 hb).1
  pooled b hb := h.pooled b (mem_filter.1 hb).1
  malloc b hb := h.malloc b (mem_filter.1 hb).1
  chain := h.chain
  nodup := h.nodup
  listed k h₁ hk a ha := by
    obtain ⟨hc, hl⟩ := h.listed k h₁ hk a ha; exact ⟨hc, fun b hb => hl b (mem_filter.1 hb).1⟩

/-- A block of the pool, held by nobody and in no list, goes to the front of the list of its class. -/
theorem BlocksOk.push (h : s.BlocksOk lists) {ptr : Nat} (h₁ : 1 ≤ k) (hk : k ≤ kClassCount) (hptr : ptr ≠ 0)
    (hword : s.free (k - 1) < 256 ^ kPointer) (hcarved : (ptr, k) ∈ s.carved)
    (hlive : ∀ b ∈ s.live, Apart ptr (k * kGranule) b.addr b.room) (hlists : ∀ k', 1 ≤ k' → k' ≤ kClassCount → ptr ∉ lists k')
    (base : Nat) :
    ({ s with
        lastBase := base
        lastClass := k
        mem := store kPointer s.mem ptr (s.free (k - 1))
        free := Function.update s.free (k - 1) ptr } : Pool).BlocksOk (Function.update lists k (ptr :: lists k)) := by
  have hkeep : ∀ k', 1 ≤ k' → k' ≤ kClassCount → Chain kPointer (store kPointer s.mem ptr (s.free (k - 1))) (s.free (k' - 1))
      (lists k') := by
    intro k' h₁' hk'
    refine (h.chain k' h₁' hk').congr fun a ha => load_congr fun x hx₁ hx₂ => (store_of_not_mem ?_).symm
    have hc' := (h.listed k' h₁' hk' a ha).1
    have hne : a ≠ ptr := fun heq => hlists k' h₁' hk' (heq ▸ ha)
    have hapart := of_pairwise (fun _ _ hd => Apart.symm hd) h.carved hc' hcarved fun heq => hne (congrArg Prod.fst heq)
    have hp : kPointer = 8 := rfl
    have hg : kGranule = 16 := rfl
    unfold Apart at hapart
    rw [hp] at hx₂ ⊢; rw [hg] at hapart; omega
  constructor
  · exact h.bump
  · exact h.inside
  · exact h.carved
  · exact h.live
  · exact h.fits
  · exact h.pooled
  · exact h.malloc
  · intro k' h₁' hk'
    dsimp only
    by_cases heq : k' = k
    · subst heq
      rw [update_self, update_self]
      refine ⟨rfl, hptr, ?_⟩
      rw [load_store hword]; exact hkeep k' h₁' hk'
    · have hidx : k' - 1 ≠ k - 1 := by omega
      rw [update_of_ne hidx, update_of_ne heq]; exact hkeep k' h₁' hk'
  · intro k' h₁' hk'
    by_cases heq : k' = k
    · subst heq; rw [update_self]; exact nodup_cons.2 ⟨hlists k' h₁' hk', h.nodup k' h₁' hk'⟩
    · rw [update_of_ne heq]; exact h.nodup k' h₁' hk'
  · intro k' h₁' hk' a ha
    by_cases heq : k' = k
    · subst heq
      rw [update_self] at ha
      rcases mem_cons.1 ha with rfl | ha
      · exact ⟨hcarved, hlive⟩
      · exact h.listed k' h₁' hk' a ha
    · rw [update_of_ne heq] at ha; exact h.listed k' h₁' hk' a ha

/-- What holds of a block of the pool that the program holds. -/
structure Pooled (s : Pool) (b : Block) : Prop where
  one : 1 ≤ b.klass
  count : b.klass ≤ kClassCount
  carved : (b.addr, b.klass) ∈ s.carved
  addr : b.addr ≠ 0
  base : (baseOf b.addr, b.klass) ∈ s.chunks
  classify : s.classify b.addr = b.klass

theorem BlocksOk.pooled_block (h : s.BlocksOk lists) (hc : s.ChunksOk) {b : Block} (hb : b ∈ s.live) (hk : b.klass ≠ 0) :
    s.Pooled b := by
  have hcarved := h.pooled b hb hk
  obtain ⟨hone, hin⟩ := h.inside _ hcarved
  have hbase := hc.base_mem hone hin
  have hclass := hc.classify_pooled hone hin
  obtain ⟨c, hmem, hle, -⟩ := hin
  have hne := (hc.chunk _ hmem).base
  exact ⟨hone, (hc.chunk _ hbase).count, hcarved, by dsimp only at hle hne; omega, hbase, hclass⟩

theorem BlocksOk.head_lt (h : s.BlocksOk lists) (hc : s.ChunksOk) (h₁ : 1 ≤ k) (hk : k ≤ kClassCount) :
    s.free (k - 1) < 256 ^ kPointer := by
  have hword : 256 ^ kPointer = 2 ^ 64 := by decide
  have hchain := h.chain k h₁ hk
  have hlisted := h.listed k h₁ hk
  rw [hword]
  cases hl : lists k with
  | nil =>
    rw [hl] at hchain
    have hzero : s.free (k - 1) = 0 := hchain
    omega
  | cons a rest =>
    rw [hl] at hchain hlisted
    obtain ⟨-, c, hin, -, htop⟩ := h.inside _ (hlisted a mem_cons_self).1
    have hle := (hc.chunk _ hin).top
    have hpos := h.carved_pos (hlisted a mem_cons_self).1
    have ha := hchain.1; omega

theorem Ok.release (h : s.Ok) {ptr : Nat} (hptr : ptr = 0 ∨ ∃ b ∈ s.live, b.addr = ptr) : (s.release ptr).Ok := by
  obtain ⟨hc, lists, hb⟩ := h
  have hdrop := hb.drop ptr
  unfold Pool.release
  split
  · exact ⟨hc, lists, hb⟩
  · next hne =>
    obtain ⟨b, hin, rfl⟩ := hptr.resolve_left hne
    by_cases hk : b.klass = 0
    · have hclass : s.classify b.addr = 0 := hc.classify_malloc (room_pos b) (hb.malloc b hin hk).2
      rw [if_pos hclass]
      exact ⟨⟨hc.chunk, hc.apart, hc.registered, hc.any, hc.cache⟩, lists, hdrop⟩
    · have hp := hb.pooled_block hc hin hk
      rw [if_neg (hp.classify ▸ hk), hp.classify]
      refine ⟨⟨hc.chunk, hc.apart, hc.registered, hc.any, fun _ => hp.base⟩,
        Function.update lists b.klass (b.addr :: lists b.klass), ?_⟩
      refine hdrop.push hp.one hp.count hne (hb.head_lt hc hp.one hp.count) hp.carved ?_ ?_ _
      · intro d hd
        obtain ⟨hd, hne'⟩ := mem_filter.1 hd
        exact hb.carved_live hp.carved hd (Ne.symm (of_decide_eq_true hne'))
      · intro k' h₁' hk' hl
        have hapart := (hb.listed k' h₁' hk' b.addr hl).2 b hin
        exact Apart.ne hapart (Nat.mul_pos h₁' (by decide)) (room_pos b) rfl

/-! ## Each step -/

theorem Ok.write (h : s.Ok) {addr : Nat} {byte : UInt8} (hw : ∃ b ∈ s.live, b.addr ≤ addr ∧ addr < b.addr + b.room) :
    ({ s with mem := Function.update s.mem addr byte } : Pool).Ok := by
  obtain ⟨hc, lists, hb⟩ := h
  obtain ⟨b, hin, hle, hlt⟩ := hw
  refine ⟨⟨hc.chunk, hc.apart, hc.registered, hc.any, hc.cache⟩, lists, ?_⟩
  refine ⟨hb.bump, hb.inside, hb.carved, hb.live, hb.fits, hb.pooled, hb.malloc, ?_, hb.nodup, hb.listed⟩
  intro k h₁ hk
  refine (hb.chain k h₁ hk).congr fun a ha => load_congr fun x hx₁ hx₂ => ?_
  have hapart := (hb.listed k h₁ hk a ha).2 b hin
  have hp : kPointer = 8 := rfl
  have hg : kGranule = 16 := rfl
  rw [hp] at hx₂
  unfold Apart at hapart
  rw [hg] at hapart
  have hne : x ≠ addr := by omega
  exact (update_of_ne hne byte s.mem).symm

theorem refill_eq (s : Pool) (chunk : Nat) (hk : k ≤ kClassCount) :
    s.refill k chunk = s ∨ (s.refill k chunk).hasRoom k = true := by
  unfold Pool.refill
  split
  · exact .inl rfl
  · next hchunk =>
    split
    · refine .inr ?_
      have hfits : k * kGranule ≤ kChunkSize := Nat.le_trans (Nat.mul_le_mul_right kGranule hk) (by decide)
      unfold hasRoom; simp [update_self, hchunk, hfits]
    · exact .inl rfl

theorem Ok.allocate (h : s.Ok) {pooled : Bool} {size chunk block : Nat} (hp : s.Proper (.allocate size chunk block)) :
    (s.allocate pooled size chunk block).Ok := by
  obtain ⟨hchunk, hsize, hblock, -, hchunks, hlive⟩ := hp
  have hmalloc : (s.malloc size block).Ok := by
    obtain ⟨hc, lists, hb⟩ := h
    exact ⟨⟨hc.chunk, hc.apart, hc.registered, hc.any, hc.cache⟩, lists, hb.malloc_step hblock hchunks hlive⟩
  have hcarve : ∀ {t : Pool}, t.Ok → 1 ≤ klassOf size → klassOf size ≤ kClassCount → t.hasRoom (klassOf size) = true →
      (t.carve (klassOf size) size).Ok := by
    rintro t ⟨hc, lists, hb⟩ h₁ hk hroom
    refine ⟨⟨hc.chunk, hc.apart, hc.registered, hc.any, hc.cache⟩, lists, ?_⟩
    exact hb.carve hc (le_klassOf hsize h₁) h₁ hk hroom
  unfold Pool.allocate
  dsimp only
  split
  · next hpool =>
    obtain ⟨-, h₁, hk⟩ := hpool
    split
    · next hfree =>
      obtain ⟨hc, lists, hb⟩ := h
      obtain ⟨lists', hb'⟩ := hb.pop (le_klassOf hsize h₁) h₁ hk hfree
      exact ⟨⟨hc.chunk, hc.apart, hc.registered, hc.any, hc.cache⟩, lists', hb'⟩
    · by_cases hroom : s.hasRoom (klassOf size) = true
      · rw [if_pos hroom, if_pos hroom]; exact hcarve h h₁ hk hroom
      · rw [if_neg hroom]
        have hrefill := h.refill chunk h₁ hk fun hne => ⟨(hchunk hne).1, (hchunk hne).2.1, (hchunk hne).2.2.1,
          (hchunk hne).2.2.2⟩
        rcases s.refill_eq chunk hk with heq | hroom'
        · rw [heq, if_neg hroom]; exact hmalloc
        · rw [if_pos hroom']; exact hcarve hrefill h₁ hk hroom'
  · exact hmalloc

theorem Ok.step {s' : Pool} {pooled : Bool} {l : Label} (h : s.Ok) (hp : s.Proper l) (hstep : s.step pooled l = some s') :
    s'.Ok := by
  cases l with
  | allocate size chunk block => cases hstep; exact h.allocate hp
  | release ptr => cases hstep; exact h.release hp
  | write addr byte => cases hstep; exact h.write hp

/-! ## What follows -/

theorem Ok.sound (h : s.Ok) : s.Sound := by
  obtain ⟨hc, lists, hb⟩ := h
  constructor
  · exact hb.live
  · exact hb.fits
  · exact fun k h₁ hk => ⟨lists k, hb.chain k h₁ hk, hb.nodup k h₁ hk, hb.listed k h₁ hk⟩
  · exact fun a k k' hk hk' => hb.carved_once hk hk'
  · intro b hin hk
    have hp := hb.pooled_block hc hin hk
    refine ⟨hp.carved, ?_⟩
    unfold Pool.release; rw [if_neg hp.addr, hp.classify, if_neg hk]
  · intro b hin c hrel x hx₁ hx₂
    unfold Pool.release at hrel ⊢
    split
    · rfl
    · next hne =>
      rw [if_neg hne] at hrel
      dsimp only at hrel ⊢
      by_cases hk : b.klass = 0
      · rw [if_pos (hc.classify_malloc (room_pos b) (hb.malloc b hin hk).2)]
      · have hp := hb.pooled_block hc hin hk
        rw [hp.classify, if_neg hk] at hrel ⊢
        obtain ⟨hcin, hcne⟩ := mem_filter.1 hrel
        have hapart := hb.carved_live hp.carved hcin (Ne.symm (of_decide_eq_true hcne))
        have hone := hp.one
        have hw : kPointer = 8 := rfl
        have hg : kGranule = 16 := rfl
        refine store_of_not_mem ?_
        unfold Apart at hapart
        dsimp only at hapart
        rw [hg] at hapart; rw [hw]; omega
  · exact fun b hin hk => hc.classify_malloc (room_pos b) (hb.malloc b hin hk).2
  · exact fun c hin => hc.registered.lookup hin (hc.chunk c hin).count

end Pool

/-- **The allocator is sound** in every state that proper calls can reach. -/
theorem pool_sound (pooled : Bool) (labels : List Pool.Label) (s : Pool)
    (hrun : Run (Pool.step pooled) Pool.Proper {} labels s) : s.Sound :=
  (hrun.invariant (fun _ _ _ h hp hstep => h.step hp hstep) Pool.ok_init).sound

/-- A block is carved, written to, released and handed out again, beside a block of `malloc`. -/
theorem pool_sound_recycled : ∃ s, Run (Pool.step true) Pool.Proper {}
    [.allocate 24 0x300000 0x10, .write 0x300000 7, .allocate 5000 0 0x1000, .release 0x300000, .allocate 20 0 0x10,
      .release 0x1000] s ∧ s.Sound ∧ s.live = [⟨0x300000, 20, 2⟩] := by
  have h : (runs (fun s l => if decide (Pool.Proper s l) then Pool.step true s l else none) {}
      [.allocate 24 0x300000 0x10, .write 0x300000 7, .allocate 5000 0 0x1000, .release 0x300000, .allocate 20 0 0x10,
        .release 0x1000]).any (fun s => s.live = [⟨0x300000, 20, 2⟩]) = true := by
    decide +kernel
  obtain ⟨s, hs, hl⟩ := (Option.any_eq_true _ _).1 h
  have hrun := (Run.of_guarded (fun s l => decide (Pool.Proper s l)) hs).mono fun _ _ hp => of_decide_eq_true hp
  exact ⟨s, hrun, pool_sound true _ s hrun, of_decide_eq_true hl⟩

end NodeCompat.Alloc
