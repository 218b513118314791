import Xv6.Sv39.Model

/-!
# Page tables as finite maps

The tree that an address is looked up in is described by its nodes: `node s root d k` is the
page that the `d` upper indices in `k` lead to. In a well-formed table no page is reached
twice, so that a store to one entry changes no other path.
-/
namespace Xv6.Sv39

open Library Kalloc List Option
open Vm (u64 pgRoundDown)

variable {kend root va v w d k i t e : ℕ} {s s' : Kmem} {o : Option ℕ}

section Bits

theorem px_eq (level va : ℕ) : px level va = va / pgSize / 512 ^ level % 512 := by
  have hmask := Nat.and_two_pow_sub_one_eq_mod (va >>> (12 + 9 * level)) 9
  have hpow : 2 ^ (12 + 9 * level) = pgSize * 512 ^ level := by
    rw [pow_add, pow_mul]
    norm_num [pgSize]
  rw [px, Nat.div_div_eq_div_mul, ← hpow, ← Nat.shiftRight_eq_div_pow]
  exact hmask

theorem valid_or (e : ℕ) : (e ||| pteV) &&& pteV ≠ 0 := by
  simp [pteV]

/-- The macros give back what a leaf entry was made of. -/
theorem pte2pa_pa2pte {pa perm : ℕ} (hpa : pa < 2 ^ 64) (hperm : perm < 1024) :
    pte2pa (pa2pte pa ||| perm ||| pteV) = pgRoundDown pa ∧
      pteFlags (pa2pte pa ||| perm ||| pteV) = perm ||| pteV := by
  have hlow : perm ||| pteV < 2 ^ 10 := Nat.or_lt_two_pow hperm (by decide)
  rw [Nat.or_assoc]
  constructor
  · rw [pte2pa, Nat.shiftRight_or_distrib, pa2pte, Nat.shiftLeft_shiftRight,
      Nat.shiftRight_eq_div_pow (perm ||| pteV), Nat.div_eq_of_lt hlow, Nat.or_zero,
      Nat.shiftLeft_eq, Nat.shiftRight_eq_div_pow]
    unfold pgRoundDown pgSize
    omega
  · have hmask := Nat.and_two_pow_sub_one_eq_mod (pa2pte pa ||| (perm ||| pteV)) 10
    have hzero : pa2pte pa % 2 ^ 10 = 0 := by
      rw [pa2pte, Nat.shiftLeft_eq]
      exact Nat.mul_mod_left _ _
    rw [Nat.or_mod_two_pow, hzero, Nat.zero_or, Nat.mod_eq_of_lt hlow] at hmask
    exact hmask

theorem pa2pte_lt {pa perm : ℕ} (hpa : pa < 2 ^ 64) (hperm : perm < 2 ^ 64) :
    pa2pte pa ||| perm ||| pteV < 2 ^ 64 := by
  have hshift : pa2pte pa < 2 ^ 64 := by
    rw [pa2pte, Nat.shiftLeft_eq, Nat.shiftRight_eq_div_pow]
    omega
  exact Nat.or_lt_two_pow (Nat.or_lt_two_pow hshift hperm) (by decide)

end Bits

section Entries

theorem pte_store (ht : t % pgSize = 0) (hw : w % pgSize = 0) (hi : i < 512) (hk : k < 512)
    (he : e < 2 ^ 64) :
    pte (store s (t + 8 * i) e) w k = if w = t ∧ k = i then e else pte s w k := by
  unfold pgSize at ht hw
  split_ifs with h
  · rw [h.1, h.2]
    exact Bytes.getLE_setLE_of_lt _ _ _ _ he
  · exact Bytes.getLE_setLE_of_disjoint _ _ _ _ _ _ (by omega)

theorem pte_fillPage (c : UInt8) (ht : t % pgSize = 0) (hw : w % pgSize = 0) (hne : w ≠ t)
    (hk : k < 512) : pte (s.fillPage t c) w k = pte s w k := by
  apply Bytes.getLE_congr
  intro a ha ha'
  have hout : a < t ∨ t + pgSize ≤ a := by
    unfold pgSize at *
    omega
  exact Bytes.blit_apply_of_not_mem s.mem t (fun _ => c) pgSize hout

theorem pte_fillPage_zero (hk : k < 512) : pte (s.fillPage t 0) t k = 0 := by
  apply Bytes.getLE_eq_zero
  intro a ha ha'
  have hin : a < t + pgSize := by
    unfold pgSize
    omega
  exact Bytes.blit_apply_of_mem s.mem t (fun _ => 0) pgSize (by omega) hin

def validPte (s : Kmem) (t i : ℕ) : Option ℕ :=
  if pte s t i &&& pteV = 0 then none else some (pte s t i)

theorem validPte_store (ht : t % pgSize = 0) (hi : i < 512) (he : e < 2 ^ 64) :
    validPte (store s (t + 8 * i) e) t i = if e &&& pteV = 0 then none else some e := by
  have hpte : pte (store s (t + 8 * i) e) t i = e := by
    rw [pte_store ht ht hi hi he, if_pos ⟨rfl, rfl⟩]
  rw [validPte, hpte]

def node (s : Kmem) (root : ℕ) : ℕ → ℕ → Option ℕ
  | 0, k => if k = 0 then some root else none
  | d + 1, k => ((node s root d (k / 512)).bind fun t => validPte s t (k % 512)).map pte2pa

def entry (s : Kmem) (root d k : ℕ) : Option ℕ :=
  (node s root d (k / 512)).bind fun t => validPte s t (k % 512)

/-- The translation of a page, as its entry. -/
def lookup (s : Kmem) (root v : ℕ) : Option ℕ := entry s root 2 v

theorem node_succ : node s root (d + 1) k = (entry s root d k).map pte2pa := rfl

theorem entry_of_node (h : node s root d (k / 512) = some t) :
    entry s root d k = validPte s t (k % 512) := by
  rw [entry, h, bind_some]

/-- A change of one entry, which may attach an empty page, is a change of one path. -/
theorem entry_update (hn : node s root d (k / 512) = some t)
    (hold : d < 2 → entry s root d k = none)
    (hsame : ∀ d' ≤ 2, ∀ k' t i, node s root d' k' = some t → i < 512 →
      ¬(d' = d ∧ k' * 512 + i = k) → pte s' t i = pte s t i)
    (hnew : d < 2 → ∀ e, validPte s' t (k % 512) = some e → ∀ i < 512, pte s' (pte2pa e) i = 0)
    {d' : ℕ} (k' : ℕ) (hd : d' ≤ 2) : entry s' root d' k' =
      if d' = d ∧ k' = k then validPte s' t (k % 512) else entry s root d' k' := by
  have hlast : ∀ d' ≤ 2, ∀ k', node s' root d' (k' / 512) = node s root d' (k' / 512) →
      entry s' root d' k' =
        if d' = d ∧ k' = k then validPte s' t (k % 512) else entry s root d' k' := by
    intro d' hd k' heq
    split_ifs with hc
    · rw [hc.1, hc.2] at heq ⊢
      exact entry_of_node (heq.trans hn)
    · cases hw : node s root d' (k' / 512) with
      | none => simp [entry, heq, hw]
      | some w =>
        have hp := hsame d' hd _ w (k' % 512) hw (by omega) (by omega)
        rw [entry_of_node hw, entry_of_node (heq.trans hw), validPte, validPte, hp]
  induction d' generalizing k' with
  | zero => exact hlast 0 hd k' rfl
  | succ d' ih =>
    by_cases hc : d' = d ∧ k' / 512 = k
    · -- below the changed entry there was no page, and the new one is empty
      have hnone : node s root (d' + 1) (k' / 512) = none := by
        rw [node_succ, hc.1, hc.2, hold (by omega), map_none]
      rw [if_neg (by omega), entry, entry, hnone, node_succ, ih _ (by omega), if_pos hc]
      cases he : validPte s' t (k % 512) with
      | none => simp
      | some e => simp [validPte, hnew (by omega) e he (k' % 512) (by omega)]
    · apply hlast _ hd
      rw [node_succ, node_succ, ih _ (by omega), if_neg hc]

end Entries

/-- No page of the tree is used twice. -/
structure Tree (s : Kmem) (root : ℕ) : Prop where
  aligned : ∀ d ≤ 2, ∀ k t, node s root d k = some t → t % pgSize = 0
  once : ∀ d ≤ 2, ∀ d' ≤ 2, ∀ k k' t, node s root d k = some t → node s root d' k' = some t →
    d = d' ∧ k = k'

/-- The pages of the table are allocated. -/
structure WellFormed (kend : ℕ) (s : Kmem) (root : ℕ) : Prop extends Tree s root where
  start : 0 < kend
  allocated : ∃ A l, Sound kend s A l ∧ ∀ d ≤ 2, ∀ k t, node s root d k = some t → t ∈ A

theorem Tree.slot_eq_iff (h : Tree s root) {u : ℕ} (ht : node s root 2 (v / 512) = some t)
    (hu : node s root 2 (w / 512) = some u) : t + 8 * (v % 512) = u + 8 * (w % 512) ↔ v = w := by
  have ha := h.aligned 2 le_rfl _ _ ht
  have hb := h.aligned 2 le_rfl _ _ hu
  unfold pgSize at ha hb
  constructor
  · intro he
    obtain rfl : t = u := by omega
    have := (h.once 2 le_rfl 2 le_rfl _ _ t ht hu).2
    omega
  · rintro rfl
    rw [ht, some.injEq] at hu
    rw [hu]

section Stores

variable {u : Kmem}

def Agrees (root : ℕ) (s u : Kmem) : Prop :=
  ∀ d ≤ 2, ∀ k t, node s root d k = some t → ∀ i < 512, pte u t i = pte s t i

theorem Tree.pte_store_of_ne (h : Tree s root) (hd : d ≤ 2) (hn : node s root d (k / 512) = some t)
    (he : e < 2 ^ 64) (hu : Agrees root s u) {d' k' w : ℕ} (hd' : d' ≤ 2)
    (hw : node s root d' k' = some w) (hi : i < 512) (hne : ¬(d' = d ∧ k' * 512 + i = k)) :
    pte (store u (t + 8 * (k % 512)) e) w i = pte s w i := by
  rw [pte_store (h.aligned d hd _ t hn) (h.aligned d' hd' k' w hw) (by omega) hi he, if_neg,
    hu d' hd' k' w hw i hi]
  rintro ⟨rfl, rfl⟩
  obtain ⟨rfl, rfl⟩ := h.once d' hd' d hd _ _ w hw hn
  exact hne ⟨rfl, by omega⟩

/-- A store to a leaf entry. -/
theorem Tree.store_leaf (h : Tree s root) (hn : node s root 2 (v / 512) = some t) (he : e < 2 ^ 64)
    (hu : Agrees root s u) (hs' : s' = store u (t + 8 * (v % 512)) e) :
    (∀ d ≤ 2, ∀ k, node s' root d k = node s root d k) ∧ ∀ w, lookup s' root w =
      if w = v then (if e &&& pteV = 0 then none else some e) else lookup s root w := by
  have hentry : ∀ d' ≤ 2, ∀ k', entry s' root d' k' =
      if d' = 2 ∧ k' = v then validPte s' t (v % 512) else entry s root d' k' := by
    refine fun d' hd k' =>
      entry_update hn (by omega) (fun d' hd k' w i hw hi hne => ?_) (by omega) k' hd
    rw [hs']
    exact h.pte_store_of_ne le_rfl hn he hu hd hw hi hne
  refine ⟨fun d hd k => ?_, fun w => ?_⟩
  · cases d with
    | zero => rfl
    | succ d => rw [node_succ, node_succ, hentry d (by omega), if_neg (by omega)]
  · rw [lookup, hentry 2 le_rfl, hs', validPte_store (h.aligned 2 le_rfl _ t hn) (by omega) he]
    simp [lookup]

theorem Tree.congr (h : Tree s root) (hn : ∀ d ≤ 2, ∀ k, node s' root d k = node s root d k) :
    Tree s' root := by
  refine ⟨fun d hd k t hk => ?_, fun d hd d' hd' k k' t hk hk' => ?_⟩
  · exact h.aligned d hd k t (hn d hd k ▸ hk)
  · exact h.once d hd d' hd' k k' t (hn d hd k ▸ hk) (hn d' hd' k' ▸ hk')

theorem WellFormed.congr (h : WellFormed kend s root)
    (hn : ∀ d ≤ 2, ∀ k, node s' root d k = node s root d k) (hf : s'.freelist = s.freelist)
    (hr : s'.runs = s.runs) : WellFormed kend s' root := by
  obtain ⟨A, l, hs, hin⟩ := h.allocated
  refine ⟨h.toTree.congr hn, h.start, A, l, ⟨?_, hs.free, hs.accepts⟩, fun d hd k t hk => ?_⟩
  · unfold Kmem.Lists Kmem.next
    rw [hf, hr]
    exact hs.lists
  · exact hin d hd k t (hn d hd k ▸ hk)

/-- What `kalloc` and `memset` leave: an empty page that was free. -/
theorem fresh {A : Finset ℕ} {l : List ℕ} {page : ℕ} (h : Sound kend s A l)
    (hk : kalloc s = (page, u)) (hne : page ≠ 0) :
    (∃ m, Sound kend (u.fillPage page 0) (insert page A) m) ∧ page ∉ A ∧ Accepts kend page ∧
      ∀ t, t % pgSize = 0 → t ≠ page → ∀ i < 512, pte (u.fillPage page 0) t i = pte s t i := by
  cases hf : s.freelist with
  | none => simp [kalloc, hf, hne.symm] at hk
  | some r =>
    obtain ⟨m, rfl, hpage, -, hsound⟩ := h.kalloc_some hf
    obtain ⟨hacc, hA⟩ := (h.free r).mp mem_cons_self
    rw [hk] at hpage hsound
    obtain rfl : page = r * pgSize := hpage
    simp only [kalloc, hf, Prod.mk.injEq, true_and] at hk
    subst hk
    refine ⟨⟨m, hsound.fillPage 0⟩, hA, hacc, fun t ht hne i hi => ?_⟩
    rw [pte_fillPage 0 hacc.1 ht hne hi, pte_fillPage 5 hacc.1 ht hne hi]
    rfl

theorem Tree.freeFrame_ok {doFree : Bool} {pa : ℕ} (h : Tree s root)
    (hout : doFree = true → ∀ d ≤ 2, ∀ k, node s root d k ≠ some pa)
    (hx : freeFrame kend doFree pa s = .ok ⟨⟩ u) : Agrees root s u := by
  intro d hd k t ht i hi
  rw [freeFrame, get_run] at hx
  rcases ite_ok hx with ⟨-, hx⟩ | ⟨hfree, hx⟩
  · rw [(pure_ok.mp hx).2]
  · have hne : t ≠ pa := fun hc => hout (by simpa using hfree) d hd k (hc ▸ ht)
    by_cases hacc : Accepts kend pa
    · by_cases href : s.getref pa = 1
      · simp [kfree, hacc, href] at hx
        rw [← hx]
        exact pte_fillPage 1 hacc.1 (h.aligned d hd k t ht) hne hi
      · simp [kfree, hacc, href] at hx
    · simp [kfree, hacc] at hx

theorem kalloc_null {A : Finset ℕ} {l : List ℕ} (h : Sound kend s A l) (hstart : 0 < kend)
    (hk : kalloc s = (0, u)) : u = s := by
  cases hf : s.freelist with
  | none =>
    rw [kalloc, hf] at hk
    exact (Prod.ext_iff.mp hk).2.symm
  | some r =>
    obtain ⟨m, rfl, hpage, -⟩ := h.kalloc_some hf
    obtain ⟨⟨-, hacc, -⟩, -⟩ := (h.free r).mp mem_cons_self
    rw [hk] at hpage
    omega

theorem WellFormed.attach {page : ℕ} (h : WellFormed kend s root) (hd : d < 2)
    (hn : node s root d (k / 512) = some t) (hold : pte s t (k % 512) &&& pteV = 0)
    (hk : kalloc s = (page, u)) (hne : page ≠ 0)
    (hs' : s' = store (u.fillPage page 0) (t + 8 * (k % 512)) (pa2pte page ||| pteV)) :
    WellFormed kend s' root ∧ (∀ w, lookup s' root w = lookup s root w) ∧
      ∀ d' ≤ 2, ∀ k', node s' root d' k' =
        if d' = d + 1 ∧ k' = k then some page else node s root d' k' := by
  obtain ⟨A, l, hsound, hin⟩ := h.allocated
  obtain ⟨⟨m, hm⟩, hA, hacc, hpte⟩ := fresh hsound hk hne
  have hlt : page < 2 ^ 64 := by
    have := hacc.2.2
    unfold phystop physStop pgSize at this
    omega
  have he : pa2pte page ||| pteV < 2 ^ 64 := by
    simpa using pa2pte_lt hlt (by decide : 0 < 2 ^ 64)
  have hagree : Agrees root s (u.fillPage page 0) := fun d hd k t hk =>
    hpte t (h.aligned d hd k t hk) fun hc => hA (hc ▸ hin d hd k t hk)
  have ht := h.aligned d hd.le _ t hn
  have hnone : entry s root d k = none := by
    rw [entry_of_node hn, validPte, if_pos hold]
  have hsame : ∀ d' ≤ 2, ∀ k' t' i, node s root d' k' = some t' → i < 512 →
      ¬(d' = d ∧ k' * 512 + i = k) → pte s' t' i = pte s t' i := by
    intro d' hd' k' t' i hw hi hne
    rw [hs']
    exact h.pte_store_of_ne hd.le hn he hagree hd' hw hi hne
  have hnew : ∀ i < 512, pte s' page i = 0 := by
    intro i hi
    have hpt : page ≠ t := fun hc => hA (hc ▸ hin d hd.le _ t hn)
    rw [hs', pte_store ht hacc.1 (by omega) hi he, if_neg (by simp [hpt]), pte_fillPage_zero hi]
  have hvalid : validPte s' t (k % 512) = some (pa2pte page ||| pteV) := by
    rw [hs', validPte_store ht (by omega) he, if_neg (valid_or _)]
  have hpage : pte2pa (pa2pte page ||| pteV) = page := by
    have hdec := (pte2pa_pa2pte hlt (by decide : 0 < 1024)).1
    rw [Nat.or_zero] at hdec
    rw [hdec]
    exact mul_div_of_accepts hacc
  have hentry : ∀ d' ≤ 2, ∀ k', entry s' root d' k' = if d' = d ∧ k' = k
      then some (pa2pte page ||| pteV) else entry s root d' k' := by
    intro d' hd' k'
    rw [← hvalid]
    refine entry_update hn (fun _ => hnone) hsame (fun _ e hv => ?_) k' hd'
    rw [hvalid, some.injEq] at hv
    rwa [← hv, hpage]
  have hnode : ∀ d' ≤ 2, ∀ k', node s' root d' k' =
      if d' = d + 1 ∧ k' = k then some page else node s root d' k' := by
    intro d' hd' k'
    cases d' with
    | zero => rw [if_neg (by omega)]; rfl
    | succ d' =>
      rw [node_succ, node_succ, hentry d' (by omega)]
      by_cases hc : d' = d ∧ k' = k
      · rw [if_pos hc, if_pos (by omega), map_some, hpage]
      · rw [if_neg hc, if_neg (by omega)]
  refine ⟨⟨⟨fun d' hd' k' w hw => ?_, fun d' hd' d'' hd'' k' k'' w hw hw' => ?_⟩, h.start,
    insert page A, m, by rw [hs']; exact ⟨hm.lists, hm.free, hm.accepts⟩, fun d' hd' k' w hw => ?_⟩,
    fun w => ?_, hnode⟩
  · rw [hnode d' hd'] at hw
    split_ifs at hw
    · cases hw
      exact hacc.1
    · exact h.aligned d' hd' k' w hw
  · rw [hnode _ (by assumption)] at hw hw'
    split_ifs at hw hw'
    · omega
    · cases hw
      exact absurd (hin d'' hd'' _ _ hw') hA
    · cases hw'
      exact absurd (hin d' hd' _ _ hw) hA
    · exact h.once d' hd' d'' hd'' k' k'' w hw hw'
  · rw [hnode d' hd'] at hw
    split_ifs at hw
    · cases hw
      exact Finset.mem_insert_self _ _
    · exact Finset.mem_insert_of_mem (hin d' hd' k' w hw)
  · rw [lookup, hentry 2 le_rfl, if_neg (by omega), lookup]

end Stores

end Xv6.Sv39
