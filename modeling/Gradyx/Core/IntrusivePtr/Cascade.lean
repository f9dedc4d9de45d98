import Gradyx.Core.IntrusivePtr.Reachability

/-!
# IntrusivePtr — what a cascade destroys

A handle gives its reference to a pending release, and the cascade runs to its
end. It destroys the objects that nothing holds any more, and no others.

* `Follows` is the invariant of the cascade: the objects that are still alive
  have the members they had, and the others were unheld.
* `settle_cascaded` is the result: `Cascaded` says what every handle and every
  object is after the cascade, from the graph before it.
-/

namespace Gradyx.IntrusiveHeap

open Gradyx.Lib

namespace Heap

variable {B g h h' : Heap} {held : List Ptr} {p : Ptr}

/-! ## Between two cascades -/

theorem Exists.obj {o : ℕ} (hex : h.Exists o) : ∃ t, h.objs[o]? = some t :=
  ⟨_, List.getElem?_eq_getElem hex.1⟩

theorem Counted.dead_of_pending (hc : h.Counted held) {o k : ℕ} {t : Target}
    (hp : .destroy o k ∈ h.pending) (ht : h.objs[o]? = some t) : t.target = false := by
  have hfate := hc.fate o t ht
  have hle := le_tally (Task.destroys o) hp
  rw [Task.destroys, refsTo_self] at hle
  cases hl : t.target with
  | false => rfl
  | true =>
      rw [if_pos hl] at hfate
      omega

/-! ## The invariant of a cascade -/

/-- The heap `h` is on the way of a cascade that started from `B`. -/
structure Follows (B h : Heap) : Prop where
  roots : h.roots = B.roots
  length : h.objs.length = B.objs.length
  obj : ∀ (o : ℕ) (t : Target), h.objs[o]? = some t → ∃ t₀ : Target, B.objs[o]? = some t₀ ∧
    t.members.length = t₀.members.length ∧
    (t.target = true → t₀.target = true ∧ t.members = t₀.members) ∧
    (t.target = false → t₀.target = true → B.graph.Unheld o)

namespace Follows

theorem refl (B : Heap) : Follows B B :=
  ⟨rfl, rfl, fun _ t ht => ⟨t, ht, rfl, fun hl => ⟨hl, rfl⟩, fun hd hl => by
    rw [hl] at hd
    cases hd⟩⟩

theorem congr (hf : Follows B h) (hr : h'.roots = h.roots) (ho : h'.objs = h.objs) :
    Follows B h' :=
  ⟨hr.trans hf.roots, (congrArg List.length ho).trans hf.length, fun o t ht =>
    hf.obj o t (ho ▸ ht)⟩

/-- Replacing an object that was alive only if it still is, or is unheld. -/
theorem withObj {o : ℕ} {t t' : Target} (hf : Follows B h) (ht : h.objs[o]? = some t)
    (hlen : t'.members.length = t.members.length)
    (hlive : t'.target = true → t.target = true ∧ t'.members = t.members)
    (hdead : t'.target = false → t.target = true → B.graph.Unheld o) :
    Follows B (h.withObj o t') := by
  refine ⟨hf.roots, List.length_set.trans hf.length, fun x t₁ ht₁ => ?_⟩
  simp only [Heap.withObj, List.getElem?_set] at ht₁
  split at ht₁
  · next hx =>
      subst hx
      split at ht₁
      · cases ht₁
        obtain ⟨t₀, ht₀, hl, hliv, hded⟩ := hf.obj o t ht
        refine ⟨t₀, ht₀, hlen.trans hl, fun hl' => ?_, fun hd' h₀ => ?_⟩
        · obtain ⟨htt, hmm⟩ := hlive hl'
          exact ⟨(hliv htt).1, hmm.trans (hliv htt).2⟩
        · cases htt : t.target with
          | true => exact hdead hd' htt
          | false => exact hded htt h₀
      · cases ht₁
  · exact hf.obj x t₁ ht₁

/-- An object whose last reference is released was unheld: the owners it had are
dead. -/
theorem unheld (hf : Follows B h) (howner : ∀ x y, B.graph.owns x y →
    ∃ t₀ : Target, B.objs[x]? = some t₀ ∧ t₀.target = true) {o : ℕ} (ho : h.handleRefs o = 0) :
    B.graph.Unheld o := by
  have hroot : h.rootRefs o = 0 := (Nat.add_eq_zero_iff.mp ho).1
  have hmember : h.memberRefs o = 0 := (Nat.add_eq_zero_iff.mp ho).2
  refine ⟨fun hr => ?_, fun y hy => ?_⟩
  · have hr' : h.graph.root o := by
      change some (some o) ∈ h.roots
      rw [hf.roots]
      exact hr
    exact absurd hroot ((rootRefs_pos_iff h o).mpr hr').ne'
  · obtain ⟨t₀, ht₀, hlive₀⟩ := howner y o hy
    have hlen : y < h.objs.length := hf.length ▸ (List.getElem?_eq_some_iff.mp ht₀).1
    have ht : h.objs[y]? = some h.objs[y] := List.getElem?_eq_getElem hlen
    obtain ⟨t₀', ht₀', -, hlive, hdead⟩ := hf.obj y _ ht
    cases ht₀.symm.trans ht₀'
    cases htt : h.objs[y].target with
    | false => exact hdead htt hlive₀
    | true =>
        -- an owner that is alive still refers to the object
        obtain ⟨t₁, ht₁, hm⟩ := hy
        cases ht₀.symm.trans ht₁
        have howns : h.graph.owns y o := ⟨_, ht, (hlive htt).2 ▸ hm⟩
        exact absurd hmember ((memberRefs_pos_iff h o).mpr ⟨y, howns⟩).ne'

/-- Every primitive step of the cascade keeps the invariant. -/
theorem cascadeStep (hf : Follows B h) (hc : h.Counted []) (howner : ∀ x y, B.graph.owns x y →
    ∃ t₀ : Target, B.objs[x]? = some t₀ ∧ t₀.target = true) : Follows B h.cascadeStep := by
  unfold Heap.cascadeStep
  split
  · exact hf
  · next o rest hp =>
      have hpop := hc.popRelease hp
      have hpos : 0 < (h.withPending rest).refs [some o] o := by simp [refs, refsTo]
      obtain ⟨t, ht, htg, hs, hw⟩ := hpop.live_of_refs hpos
      have hf' : Follows B (h.withPending rest) := hf.congr rfl rfl
      simp only [releaseStrongRef, ht, Counted.touch_live _ hw, htg, if_true]
      split
      · next hlast =>
          refine (withObj hf' ht ?_ ?_ ?_).congr rfl rfl
          · rfl
          · intro hfalse
            cases hfalse
          · intro _ _
            have hzero : (h.withPending rest).handleRefs o = 0 := by
              rw [hs] at hlast
              simp only [refs, tally_cons, refsTo_self] at hlast
              omega
            exact hf'.unheld howner hzero
      · refine withObj hf' ht rfl (fun _ => ⟨htg, rfl⟩) fun hd => ?_
        cases hd
  · next o rest hp =>
      obtain ⟨t, ht, -⟩ := hc.pending o 0 (hp ▸ List.mem_cons_self)
      have hf' : Follows B ((h.withPending rest).touch t) := hf.congr rfl rfl
      have ht' : (h.withPending rest).objs[o]? = some t := ht
      simp only [baseDestructor, ht']
      have hlen : ({ t with weakRefs := IntrusivePtr.sizeSub t.weakRefs } : Target).members.length =
          t.members.length := rfl
      refine (withObj hf' ht' hlen (fun hl => ⟨hl, rfl⟩) fun hd hl => ?_).congr rfl rfl
      rw [show t.target = false from hd] at hl
      cases hl
  · next o k rest hp =>
      have hf' : Follows B (h.withPending (.destroy o k :: rest)) := hf.congr rfl rfl
      obtain ⟨t, ht, -⟩ := hc.pending o (k + 1) (hp ▸ List.mem_cons_self)
      have hdead : t.target = false := hc.dead_of_pending (hp ▸ List.mem_cons_self) ht
      have hstore : Follows B ((h.withPending (.destroy o k :: rest)).store (.member o k) none) := by
        have ht' : (h.withPending (.destroy o k :: rest)).objs[o]? = some t := ht
        simp only [store, ht']
        refine withObj hf' ht' List.length_set (fun hl => ?_) fun _ hl => ?_
        · exact absurd (show t.target = true from hl) (Bool.eq_false_iff.mp hdead)
        · exact absurd hl (Bool.eq_false_iff.mp hdead)
      unfold reset
      split
      · exact hf'.congr rfl rfl
      · exact hstore
      · exact hstore.congr rfl rfl

theorem settle (hf : Follows B h) (hc : h.Counted []) (howner : ∀ x y, B.graph.owns x y →
    ∃ t₀ : Target, B.objs[x]? = some t₀ ∧ t₀.target = true) : Follows B h.settle := by
  have hiter : ∀ n, Follows B (Heap.cascadeStep^[n] h) ∧ (Heap.cascadeStep^[n] h).Counted [] := by
    intro n
    induction n with
    | zero => exact ⟨hf, hc⟩
    | succ n ih =>
        rw [Function.iterate_succ_apply']
        exact ⟨ih.1.cascadeStep ih.2 howner, cascadeStep_counted ih.2⟩
  exact (hiter h.cost).1

/-- At the end of the cascade nothing unheld is alive: the last owner to die would
have released it. -/
theorem dead_of_unheld (hf : Follows B g) (hg : g.Settled) {o : ℕ} (ho : B.graph.Unheld o) :
    ¬ g.Exists o := by
  induction ho with
  | @intro o hroot _ ih =>
      intro hex
      rcases hg.supports.supported o hex with hr | ⟨x, hx, hxo⟩
      · change some (some o) ∈ g.roots at hr
        rw [hf.roots] at hr
        exact hroot hr
      · obtain ⟨t, ht, hm⟩ := hxo
        obtain ⟨t₀, ht₀, -, hlive, -⟩ := hf.obj x t ht
        have hmem := (hlive ((hg.exists_iff ht).mp hx)).2
        exact ih x ⟨t₀, ht₀, hmem ▸ hm⟩ hx

/-- The objects that are left are the ones that were held. -/
theorem exists_iff (hf : Follows B g) (hg : g.Settled) (hc : B.Counted held)
    (hp : B.pending = []) (o : ℕ) : g.Exists o ↔ B.Exists o ∧ ¬ B.graph.Unheld o := by
  constructor
  · intro hex
    obtain ⟨t, ht⟩ := hex.obj
    obtain ⟨t₀, ht₀, -, hlive, -⟩ := hf.obj o t ht
    refine ⟨(hc.exists_iff hp ht₀).mpr (hlive ((hg.exists_iff ht).mp hex)).1, ?_⟩
    exact fun hun => hf.dead_of_unheld hg hun hex
  · rintro ⟨hex, hheld⟩
    obtain ⟨t, ht⟩ : ∃ t, g.objs[o]? = some t := by
      have hlt : o < g.objs.length := hf.length ▸ hex.1
      exact ⟨g.objs[o], List.getElem?_eq_getElem hlt⟩
    obtain ⟨t₀, ht₀, -, -, hdead⟩ := hf.obj o t ht
    rw [hg.exists_iff ht]
    by_contra hd
    exact hheld (hdead (Bool.eq_false_iff.mpr hd) ((hc.exists_iff hp ht₀).mp hex))

theorem load_live (hf : Follows B g) (hg : g.Settled) {o : ℕ} (k : ℕ) (hex : g.Exists o) :
    g.load (.member o k) = B.load (.member o k) := by
  obtain ⟨t, ht⟩ := hex.obj
  obtain ⟨t₀, ht₀, -, hlive, -⟩ := hf.obj o t ht
  simp only [load, ht, ht₀, Option.bind_some, (hlive ((hg.exists_iff ht).mp hex)).2]

theorem load_dead (hf : Follows B g) (hg : g.Settled) {o : ℕ} (k : ℕ) (hex : ¬ g.Exists o) :
    g.load (.member o k) = (B.load (.member o k)).map fun _ => none := by
  cases ht : g.objs[o]? with
  | none =>
      have ht₀ : B.objs[o]? = none := by
        rw [List.getElem?_eq_none_iff] at ht ⊢
        exact hf.length ▸ ht
      simp only [load, ht, ht₀, Option.bind_none, Option.map_none]
  | some t =>
      obtain ⟨t₀, ht₀, hlen, -⟩ := hf.obj o t ht
      have hdead : t.target = false := by
        rw [Bool.eq_false_iff]
        exact fun hl => hex ((hg.exists_iff ht).mpr hl)
      simp only [load, ht, ht₀, Option.bind_some]
      cases hk : t.members[k]? with
      | none =>
          have hk₀ : t₀.members[k]? = none := by
            rw [List.getElem?_eq_none_iff] at hk ⊢
            exact hlen ▸ hk
          rw [hk₀, Option.map_none]
      | some q =>
          have hlt : k < t₀.members.length := hlen ▸ (List.getElem?_eq_some_iff.mp hk).1
          rw [hg.1.member_null hg.2 ht hdead hk, List.getElem?_eq_getElem hlt, Option.map_some]

end Follows

/-! ## The result of a cascade -/

/-- The references of `p`, which no handle has any more, are released. -/
def released (h : Heap) (p : Ptr) : Heap := p.elim h fun o => h.push (.release o)

/-- The heap after the cascade, by the graph before it: the unheld objects are
destroyed and have null members, the others are as they were. -/
structure Cascaded (B g : Heap) : Prop where
  settled : g.Settled
  roots : g.roots = B.roots
  length : g.objs.length = B.objs.length
  exists_iff : ∀ o, g.Exists o ↔ B.Exists o ∧ ¬ B.graph.Unheld o
  load_live : ∀ o k, g.Exists o → g.load (.member o k) = B.load (.member o k)
  load_dead : ∀ o k, ¬ g.Exists o → g.load (.member o k) = (B.load (.member o k)).map fun _ => none

theorem settle_cascaded (hc : B.Counted [p]) (hp : B.pending = []) :
    Cascaded B (B.released p).settle := by
  have hstart : (B.released p).Counted [] := by
    cases p with
    | none => exact Counted.null_iff.mp hc
    | some o => exact hc.pushRelease
  have hfollows : Follows B (B.released p) := by
    cases p with
    | none => exact .refl B
    | some o => exact (Follows.refl B).congr rfl rfl
  have howner : ∀ x y, B.graph.owns x y →
      ∃ t₀ : Target, B.objs[x]? = some t₀ ∧ t₀.target = true := by
    intro x y hxy
    have hex := hc.exists_of_owns hp hxy
    obtain ⟨t, ht⟩ := hex.obj
    exact ⟨t, ht, (hc.exists_iff hp ht).mp hex⟩
  have hf := hfollows.settle hstart howner
  have hg : (B.released p).settle.Settled := ⟨settle_counted hstart, settle_done _⟩
  exact {
    settled := hg
    roots := hf.roots
    length := hf.length
    exists_iff := hf.exists_iff hg hc hp
    load_live := fun _ k => hf.load_live hg k
    load_dead := fun _ k => hf.load_dead hg k }

/-! ## Heaps with the same handles -/

theorem memberRefs_congr (hlen : h.objs.length = h'.objs.length)
    (hmembers : ∀ (o : ℕ) (t t' : Target), h.objs[o]? = some t → h'.objs[o]? = some t' →
      t.members = t'.members)
    (x : ℕ) : h.memberRefs x = h'.memberRefs x := by
  have hmap : h.objs.map (·.members) = h'.objs.map (·.members) := by
    refine List.ext_getElem (by rw [List.length_map, List.length_map, hlen]) fun o ho ho' => ?_
    rw [List.length_map] at ho ho'
    rw [List.getElem_map, List.getElem_map]
    exact hmembers o _ _ (List.getElem?_eq_getElem ho) (List.getElem?_eq_getElem ho')
  have hrefs : ∀ l : List Target, tally (Target.refs x) l =
      tally (tally (refsTo x)) (l.map (·.members)) := by
    intro l
    rw [tally, tally, List.map_map]
    rfl
  rw [memberRefs, memberRefs, hrefs, hrefs, hmap]

/-- Two settled heaps with the same handles and the same objects alive are the
same, up to the order in which objects were destroyed. -/
theorem Settled.ext (hs : h.Settled) (hs' : h'.Settled) (hroots : h.roots = h'.roots)
    (hlen : h.objs.length = h'.objs.length) (hexists : ∀ o, h.Exists o ↔ h'.Exists o)
    (hload : ∀ o k, h.load (.member o k) = h'.load (.member o k)) :
    h.objs = h'.objs ∧ h.destroyed.Perm h'.destroyed := by
  have hmembers : ∀ (o : ℕ) (t t' : Target), h.objs[o]? = some t → h'.objs[o]? = some t' →
      t.members = t'.members := by
    intro o t t' ht ht'
    refine List.ext_getElem? fun k => ?_
    have := hload o k
    simpa only [load, ht, ht', Option.bind_some] using this
  have htarget : ∀ (o : ℕ) (t t' : Target), h.objs[o]? = some t → h'.objs[o]? = some t' →
      t.target = t'.target := by
    intro o t t' ht ht'
    rw [Bool.eq_iff_iff, ← hs.exists_iff ht, ← hs'.exists_iff ht', hexists]
  have hsome : ∀ (o : ℕ) (t : Target), h.objs[o]? = some t → ∃ t', h'.objs[o]? = some t' := by
    intro o t ht
    exact ⟨_, List.getElem?_eq_getElem (hlen ▸ (List.getElem?_eq_some_iff.mp ht).1)⟩
  have hcount : ∀ o, h.destroyed.count o = h'.destroyed.count o := by
    intro o
    cases ht : h.objs[o]? with
    | none =>
        have ho : h.objs.length ≤ o := List.getElem?_eq_none_iff.mp ht
        rw [List.count_eq_zero.mpr fun hm => absurd (hs.1.log o hm) (not_lt.mpr ho),
          List.count_eq_zero.mpr fun hm => absurd (hs'.1.log o hm) (not_lt.mpr (hlen ▸ ho))]
    | some t =>
        obtain ⟨t', ht'⟩ := hsome o t ht
        rw [hs.1.count_destroyed hs.2 ht, hs'.1.count_destroyed hs'.2 ht', htarget o t t' ht ht']
  have hrefs : ∀ o, h.refs [] o = h'.refs [] o := by
    intro o
    rw [hs.count_eq, hs'.count_eq, rootRefs, rootRefs, hroots, memberRefs_congr hlen hmembers o]
  refine ⟨List.ext_getElem? fun o => ?_, List.perm_iff_count.mpr hcount⟩
  cases ht : h.objs[o]? with
  | none =>
      rw [List.getElem?_eq_none_iff] at ht
      rw [List.getElem?_eq_none_iff.mpr (hlen ▸ ht)]
  | some t =>
      obtain ⟨t', ht'⟩ := hsome o t ht
      have hstrong : t.strongRefs = t'.strongRefs := by
        rw [hs.1.strong o t ht, hs'.1.strong o t' ht', hrefs]
      have hweak : t.weakRefs = t'.weakRefs := by
        have hw := hs.1.weak o t ht
        have hw' := hs'.1.weak o t' ht'
        rw [hcount o] at hw
        omega
      have htg := htarget o t t' ht ht'
      have hmem := hmembers o t t' ht ht'
      rw [ht']
      cases t
      cases t'
      simp_all only

end Heap

end Gradyx.IntrusiveHeap
