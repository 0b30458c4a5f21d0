import RsProperties.Shared.Contents

/-!
# What holds in every state

`World c s` says that the state `s` has the contents `c`: lookups see their nodes and links, reads their
entries, and the writer, wherever it is, still keeps its own invariant. `World.step` is the step lemma.
Besides the invariant it says all that a step can change (`Change`): an `add` under way may bind its name,
the clean serial of an update gives one entry its value, and nothing else has an effect on what the names
are bound to.
-/

namespace RsProperties

open ByteMem PropertyAreaMap PropertyInfo Process Publish
open Seqlock (Writer WriterInv IsShort IsLong GoodValue writerStep valuesAfter countersAfter)

namespace Shared

/-- A value is text. -/
def Valid (_name value : Bytes) : Prop := Utf8.valid value = true

/-- The values published while an `add` of the name is under way. -/
def Allowed (base : Published) (name value : Bytes) (n v : Bytes) : Prop :=
  (∃ e, base.shape.lookup n = some e ∧ e.value = v) ∨ (n = name ∧ v = value)

/-- An `add` under way, which began over the contents `base`. -/
structure AddOk (base : Published) (c : Contents) (m : Mem) (a : Adding) : Prop where
  grows : base ≤ c.toPublished
  allowed : c.From (Allowed base a.name a.value)
  text : Utf8.valid a.value = true
  rest : Maintains Access.act (Anchored (Allowed base a.name a.value))
    (fun c' t r => Settled writerMap (Allowed base a.name a.value) c' t ∧
      (r = .ok () → ∃ e, c'.shape.lookup a.name = some e)) ⟨c.toPublished, m⟩ m a.rest

/-- What the writer has still to keep. -/
def WriterOk (c : Contents) (m : Mem) (w : Writer) : Option Adding → Prop
  | none => ∃ m₀, AreaInv (writerMap.withData m₀) c.shape ∧ Behind m₀ m w
  | some a => w = .idle ∧ ∃ base, AddOk base c m a

/-- The state has the contents `c`. -/
structure World (c : Contents) (s : State) : Prop where
  linked : Linked s.mem c.shape
  entries : WriterInv c.shape c.shape.valueAt c.count s.mem s.updating
  valid : c.From Valid
  writer : WriterOk c s.mem s.updating s.adding
  finding : ∀ i name o next, s.reader i = .finding name (.perform o next) →
    Observes Access.act Skeletal (fun k => Found name k.shape) ⟨c.toPublished⟩ (.perform o next)

/-- What a step does to the contents: the `add` under way may bind its name, the clean serial of an update
gives its entry the new value, and every other name keeps what it has. -/
inductive Effect (c c' : Contents) (s : State) (x : Event) (name : Bytes) : Prop
  | same (h : c'.shape.lookup name = c.shape.lookup name)
  | bound {a : Adding} {e : Entry} (ha : s.adding = some a) (hn : a.name = name)
      (hnone : c.shape.lookup name = none) (he : c'.shape.lookup name = some e)
      (hv : e.value = a.value)
  | updated {e : Entry} {value : Bytes} (hx : x = .commit e.off value)
      (he : c.shape.lookup name = some e) (he' : c'.shape.lookup name = some ⟨e.off, value⟩)

/-- All that a step changes. -/
structure Change (c : Contents) (s : State) (x : Event) (c' : Contents) (s' : State) : Prop where
  le : c ≤ c'
  effect : ∀ name, Effect c c' s x name
  count : ∀ off, IsShort c.shape off →
    c'.count off = c.count off + if isCommit off x then 2 else 0
  dirty : ∀ off, isCommit off x = true ∨
    (s.updating.dirtyAt = some off → s'.updating.dirtyAt = some off)
  bound : ∀ name value, x = .added name value (.ok ()) → ∃ e, c'.shape.lookup name = some e
  commit : ∀ name e value, x = .commit e.off value → c.shape.lookup name = some e →
    c'.shape.lookup name = some ⟨e.off, value⟩

variable {c c' : Contents} {s s' : State} {x : Event} {i : ℕ} {name : Bytes}

/-- A step that changes no contents. -/
theorem Change.refl (hd : ∀ off, s.updating.dirtyAt = some off → s'.updating.dirtyAt = some off)
    (hx : ∀ off, isCommit off x = false) (hb : ∀ name value, x ≠ .added name value (.ok ())) :
    Change c s x c s' :=
  ⟨le_rfl, fun _ => .same rfl, fun off _ => by simp [hx], fun off => .inr (hd off),
    fun name value hx => absurd hx (hb name value), fun name e value hc => by
      have := hx e.off
      simp [hc, isCommit] at this⟩

/-- What is seen of a read. -/
theorem readStep_event (m : Mem) (i : ℕ) (name : Bytes) (rd : Seqlock.Reader) :
    (readStep m i name rd).2 = .tau ∨ (∃ off, (readStep m i name rd).2 = .load i off) ∨
      ∃ off, (readStep m i name rd).2 = .agreed i off := by
  cases rd with
  | start off =>
    simp only [readStep]
    split_ifs
    · split <;> exact .inl rfl
    · exact .inl rfl
  | load off long => exact .inr (.inl ⟨off, rfl⟩)
  | check off long serial buf =>
    simp only [readStep]
    split_ifs
    · split <;> exact .inr (.inr ⟨off, rfl⟩)
    · exact .inl rfl
  | _ => exact .inl rfl

/-! ### The readers -/

/-- A step of a reader that leaves the memory alone. -/
theorem World.of_reader (h : World c s) {g : Getting}
    (hg : ∀ name o next, g = .finding name (.perform o next) →
      Observes Access.act Skeletal (fun k => Found name k.shape) ⟨c.toPublished⟩ (.perform o next)) :
    World c { s with reader := Function.update s.reader i g } := by
  refine ⟨h.linked, h.entries, h.valid, h.writer, fun j name o next hj => ?_⟩
  simp only [Function.update_apply] at hj
  split_ifs at hj with hi
  · exact hg name o next hj
  · exact h.finding j name o next hj

/-- **A load of a lookup** changes nothing and sees the nodes and links of the contents. -/
theorem World.look (h : World c s) {o : Access}
    {next : o.Ans → Process Access Access.Ans (Except Error ℕ)}
    (hr : s.reader i = .finding name (.perform o next)) : (o.act s.mem).2 = s.mem ∧
      Observes Access.act Skeletal (fun k => Found name k.shape) ⟨c.toPublished⟩
        (next (o.act s.mem).1) :=
  (h.finding i name o next hr).step (show Skeletal ⟨c.toPublished⟩ s.mem from h.linked)

theorem afterFind_ne {r : Except Error ℕ} {name' : Bytes} {o : Access}
    {next : o.Ans → Process Access Access.Ans (Except Error ℕ)} :
    afterFind name r ≠ .finding name' (.perform o next) := by
  cases r with
  | ok off =>
    rw [afterFind]
    split <;> simp
  | error e => simp [afterFind]

theorem readStep_ne {m : Mem} {rd : Seqlock.Reader} {name' : Bytes} {o : Access}
    {next : o.Ans → Process Access Access.Ans (Except Error ℕ)} :
    (readStep m i name rd).1 ≠ .finding name' (.perform o next) := by
  cases rd with
  | start off' =>
    simp only [readStep]
    split_ifs
    · split <;> simp
    · simp
  | check off' long serial buf =>
    simp only [readStep]
    split_ifs
    · split <;> simp
    · simp
  | _ => simp [readStep]

/-! ### The writer -/

/-- Lookups survive what the writer does. -/
theorem World.finding_of_le (h : World c s) (hle : c.shape.Spreads c'.shape) (i : ℕ) (name : Bytes)
    (o : Access) (next : o.Ans → Process Access Access.Ans (Except Error ℕ))
    (hr : s.reader i = .finding name (.perform o next)) :
    Observes Access.act Skeletal (fun k => Found name k.shape) ⟨c'.toPublished⟩ (.perform o next) :=
  (h.finding i name o next hr).of_le hle

/-- The writer's invariant between two calls. -/
theorem World.resting (h : World c s) (ha : s.adding = none) (hu : s.updating = .idle) :
    AreaInv (writerMap.withData s.mem) c.shape := by
  have hw := h.writer
  rw [ha, hu] at hw
  obtain ⟨m₀, hinv, hb⟩ := hw
  rw [hb.clean rfl] at hinv
  exact hinv

/-- An `add` begins. -/
theorem World.add_step (h : World c s) (ha : s.adding = none) (hu : s.updating = .idle)
    {name value : Str} (hv : 0 ∉ value.bytes) : World c { s with
      adding := some ⟨name.bytes, value.bytes, (Publish.add writerMap name.bytes value.bytes).run⟩ } := by
  have hallowed : c.From (Allowed c.toPublished name.bytes value.bytes) := by
    intro n e hl
    exact .inl ⟨e, hl, rfl⟩
  have hset : Settled writerMap (Allowed c.toPublished name.bytes value.bytes)
      ⟨c.toPublished, s.mem⟩ s.mem := ⟨h.resting ha hu, hallowed, .refl _ _⟩
  refine ⟨h.linked, h.entries, h.valid, ⟨hu, c.toPublished, le_rfl, hallowed, value.valid, ?_⟩,
    h.finding⟩
  exact publishes_add hset hv (.inr ⟨rfl, rfl⟩)

/-- The contents after an access of `add`. -/
noncomputable def grown (c : Contents) (c₁ : Framed) (m' : Mem) : Contents :=
  ⟨c₁.toPublished, extendCount c.shape c.count m'⟩

/-- **An access of `add`** may publish its name and keeps all else. -/
theorem World.grow (h : World c s) {base : Published} {a : Adding} {c₁ : Framed} {m' : Mem}
    (ha : s.adding = some a) (hu : s.updating = .idle) (hadd : AddOk base c s.mem a)
    (hle : (⟨c.toPublished, s.mem⟩ : Framed) ≤ c₁)
    (hanch : Anchored (Allowed base a.name a.value) c₁ m') :
    c ≤ grown c c₁ m' ∧ (∀ name, Effect c (grown c c₁ m') s x name) ∧
      Linked m' (grown c c₁ m').shape ∧ (grown c c₁ m').From Valid ∧
      WriterInv (grown c c₁ m').shape (grown c c₁ m').shape.valueAt (grown c c₁ m').count m' .idle := by
  obtain ⟨⟨hstored, hallowed⟩, hkept⟩ := hanch
  have hgrows : c.shape.Grows c₁.shape := hle.1
  have hvalid : c₁.From Valid := by
    intro n e hl
    rcases hallowed n e hl with ⟨e₀, hl₀, hv⟩ | ⟨-, hv⟩
    · rw [← hv]
      exact h.valid n e₀ (hadd.grows.lookup hl₀)
    · rw [hv]
      exact hadd.text
  refine ⟨follows_grow c.wf c₁.wf hgrows rfl rfl rfl, fun n => ?_, hstored.linked, hvalid, ?_⟩
  · cases hl : c.shape.lookup n with
    | some e => exact .same ((hgrows.lookup hl).trans hl.symm)
    | none =>
      cases hl' : c₁.shape.lookup n with
      | none => exact .same (hl'.trans hl.symm)
      | some e =>
        rcases hallowed n e hl' with ⟨e₀, hl₀, -⟩ | ⟨hn, hv⟩
        · cases hl.symm.trans (hadd.grows.lookup hl₀)
        · exact .bound ha hn.symm hl hl' hv
  · have hentries := h.entries
    rw [hu] at hentries
    refine entries_grow hentries c.wf c₁.wf hstored (hle.2.trans hkept hgrows.blocks) ?_
    intro n e he
    exact hvalid _ e (c₁.wf.lookup_eq_some_iff.mpr ⟨n, he, rfl⟩)

/-- The counters of the entries there are stay. -/
theorem grown_count {c₁ : Framed} {m' : Mem} (off : ℕ) (ho : IsShort c.shape off) :
    (grown c c₁ m').count off = c.count off := extendCount_of_short ho

theorem World.store_step (h : World c s) {name value : Bytes} {o : Access}
    {next : o.Ans → Process Access Access.Ans (Except Error Unit)}
    (ha : s.adding = some ⟨name, value, .perform o next⟩) :
    ∃ c', World c' { s with
        mem := (o.act s.mem).2, adding := some ⟨name, value, next (o.act s.mem).1⟩ } ∧
      Change c s .tau c' { s with
        mem := (o.act s.mem).2, adding := some ⟨name, value, next (o.act s.mem).1⟩ } := by
  have hw := h.writer
  rw [ha] at hw
  obtain ⟨hu, base, hadd⟩ := hw
  obtain ⟨c₁, hle, hanch, hrest⟩ := Maintains.step hadd.rest
  obtain ⟨hfollows, heffect, hlinked, hvalid, hentries⟩ := h.grow (x := .tau) ha hu hadd hle hanch
  refine ⟨grown c c₁ (o.act s.mem).2, ⟨hlinked, ?_, hvalid, ⟨hu, base, ?_⟩,
    h.finding_of_le hfollows.spreads⟩, hfollows, heffect, fun off ho => ?_, fun off => .inr id, by simp,
    by simp⟩
  · exact hu.symm ▸ hentries
  · have hhere : (⟨c₁.toPublished, (o.act s.mem).2⟩ : Framed) ≤ c₁ := ⟨le_rfl, hanch.2.symm⟩
    exact ⟨hadd.grows.trans hle.1, hanch.1.2, hadd.text, hrest.of_le hhere⟩
  · exact grown_count off ho

/-- An `add` returns. -/
theorem World.added_step (h : World c s) {name value : Bytes} {r : Except Error Unit}
    (ha : s.adding = some ⟨name, value, .done r⟩) :
    ∃ c', World c' { s with adding := none } ∧
      Change c s (.added name value r) c' { s with adding := none } := by
  have hw := h.writer
  rw [ha] at hw
  obtain ⟨hu, base, hadd⟩ := hw
  obtain ⟨c₁, hle, hanch, hset, hr⟩ := hadd.rest
  obtain ⟨hfollows, heffect, hlinked, hvalid, hentries⟩ :=
    h.grow (x := .added name value r) ha hu hadd hle hanch
  refine ⟨grown c c₁ s.mem, ⟨hlinked, hu.symm ▸ hentries, hvalid, ⟨s.mem, hset.inv, fun _ => rfl, ?_⟩,
    h.finding_of_le hfollows.spreads⟩, hfollows, heffect, grown_count, fun off => .inr id, ?_, by simp⟩
  · intro off hd
    change s.updating.dirtyAt = some off at hd
    rw [hu] at hd
    cases hd
  · rintro _ _ ⟨⟩
    exact hr rfl

/-- An `update` begins. -/
theorem World.update_step (h : World c s) (ha : s.adding = none) (hu : s.updating = .idle)
    {name : Bytes} {off : ℕ} (hf : (writerMap.withData s.mem).find name = .ok off) {value : Str}
    (hv : validateShortValueLen value.bytes = .ok ()) :
    World c { s with updating := .check off value.bytes } := by
  have hinv := h.resting ha hu
  obtain ⟨e, hl, rfl⟩ := hinv.find_eq_ok_iff.mp hf
  obtain ⟨n, he, -⟩ := c.wf.lookup_eq_some_iff.mp hl
  obtain ⟨h0, hlen⟩ := validateShortValueLen_eq_ok.mp hv
  refine ⟨h.linked, h.entries.move (by rw [hu]; rfl) ⟨⟨n, e, he, rfl⟩, h0, hlen, value.valid⟩,
    h.valid, ?_, h.finding⟩
  have hbehind : WriterOk c s.mem (.check e.off value.bytes) none :=
    ⟨s.mem, hinv, fun _ => rfl, fun off hd => by cases hd⟩
  exact ha.symm ▸ hbehind

/-- **A step of `update`**: the clean serial gives the entry its value, every other one is silent. -/
theorem World.write_step (h : World c s) (hu : s.updating ≠ .idle) :
    ∃ c', World c' { s with
        mem := (writerStep s.mem s.updating).1
        updating := (writerStep s.mem s.updating).2.1 } ∧
      Change c s (ofUpdate (writerStep s.mem s.updating).2.2) c' { s with
        mem := (writerStep s.mem s.updating).1
        updating := (writerStep s.mem s.updating).2.1 } := by
  cases ha : s.adding with
  | some a =>
    have hw := h.writer
    rw [ha] at hw
    exact absurd hw.1 hu
  | none =>
    have hw := h.writer
    rw [ha] at hw
    obtain ⟨m₀, hinv, hb⟩ := hw
    have hstep := h.entries.step hinv.wf
    cases updateStep hinv hb h.entries with
    | silent hx hinv' hb' =>
      rw [hx] at hstep ⊢
      refine ⟨c, ⟨hb'.linked hinv' hstep, hstep, h.valid, ⟨_, hinv', hb'⟩, h.finding⟩,
        .refl (fun off hd => ?_) (fun _ => rfl) (by simp [ofUpdate])⟩
      rcases Seqlock.writerStep_dirty hd with hd' | ⟨value, hcommit⟩
      · exact hd'
      · rw [hx] at hcommit
        cases hcommit
    | @commit n e value he hl hv hx hidle hinv' =>
      rw [hx, hidle, Seqlock.valuesAfter_commit, Seqlock.countersAfter_commit] at hstep
      rw [hx, hidle]
      have hentries := entries_revalue c.wf hinv'.wf he hl hv.len hstep
      have hused : (writerMap.withData (writerStep s.mem s.updating).1).bytesUsed = c.used :=
        hinv'.wf.layout.total.symm.trans c.wf.layout.total
      have hlook := c.wf.lookup_bindEntry (hused ▸ hinv'.wf)
      have hname : c.shape.lookup (joinDot (c.shape.path n)) = some e :=
        c.wf.lookup_eq_some_iff.mpr ⟨n, he, rfl⟩
      refine ⟨⟨.ofInv hinv', Function.update c.count e.off (c.count e.off + 2)⟩,
        ⟨⟨hinv'.rep.children, hinv'.rep.prop, hinv'.rep.tree⟩, hentries, fun name e' hl' => ?_, ?_, ?_⟩,
        follows_revalue hinv'.wf he hl hv.len rfl rfl, fun name => ?_, fun off _ => ?_,
        fun off => ?_, ?_, ?_⟩
      · -- the values are text still
        change (c.shape.bindEntry n ⟨e.off, value⟩).lookup name = some e' at hl'
        rw [hlook, Function.update_apply] at hl'
        split_ifs at hl'
        · obtain rfl := Option.some.inj hl'
          exact hv.utf8
        · exact h.valid name e' hl'
      · exact ⟨_, hinv', fun _ => rfl, fun off hd => by cases hd⟩
      · exact h.finding_of_le (.revalue he value)
      · by_cases hn : name = joinDot (c.shape.path n)
        · subst hn
          exact .updated rfl hname ((congrFun hlook _).trans (Function.update_self _ _ _))
        · exact .same ((congrFun hlook _).trans (Function.update_of_ne hn _ _))
      · change Function.update c.count e.off _ off = _
        rw [Function.update_apply]
        by_cases ho : off = e.off
        · simp [ofUpdate, isCommit, ho]
        · simp [ofUpdate, isCommit, ho, Ne.symm ho]
      · by_cases ho : off = e.off
        · exact .inl (by simp [ofUpdate, isCommit, ho])
        · refine .inr fun hd => ?_
          rcases Seqlock.writerStep_dirty (m := s.mem) hd with hd' | ⟨value', hcommit⟩
          · rw [hidle] at hd'
            cases hd'
          · rw [hx] at hcommit
            injection hcommit with ho'
            exact absurd ho'.symm ho
      · simp [ofUpdate]
      · intro name' e' value' hx' hl'
        injection hx' with ho hval
        subst hval
        obtain ⟨k, he', rfl⟩ := c.wf.lookup_eq_some_iff.mp hl'
        obtain rfl := c.wf.entry_injective he' he ho.symm
        rw [← ho]
        exact (congrFun hlook _).trans (Function.update_self _ _ _)

/-! ### The system -/

/-- **One step**: the invariant holds of contents that differ as the step says. -/
theorem World.step (h : World c s) (hs : Step s x s') : ∃ c', World c' s' ∧ Change c s x c' s' := by
  cases hs with
  | add ha hu hv =>
    exact ⟨c, h.add_step ha hu hv, .refl (fun _ => id) (fun _ => rfl) (by simp)⟩
  | store ha => exact h.store_step ha
  | added ha => exact h.added_step ha
  | update ha hu hf hv =>
    refine ⟨c, h.update_step ha hu hf hv, .refl (fun off hd => ?_) (fun _ => rfl) (by simp)⟩
    rw [hu] at hd
    cases hd
  | write hu => exact h.write_step hu
  | get hr name =>
    refine ⟨c, h.of_reader ?_, .refl (fun _ => id) (fun _ => rfl) (by simp)⟩
    intro name' o next hg
    injection hg with hn hrest
    subst hn
    rw [← hrest]
    exact observes_find sized_readerMap ⟨c.toPublished⟩ name
  | look hr =>
    obtain ⟨hmem, hobs⟩ := h.look hr
    rw [hmem]
    refine ⟨c, h.of_reader ?_, .refl (fun _ => id) (fun _ => rfl) (by simp)⟩
    intro name' o' next' hg
    injection hg with hn hrest
    subst hn
    rw [← hrest]
    exact hobs
  | found hr =>
    exact ⟨c, h.of_reader fun _ _ _ hg => absurd hg afterFind_ne,
      .refl (fun _ => id) (fun _ => rfl) (by simp)⟩
  | @read i name rd hr =>
    refine ⟨c, h.of_reader fun _ _ _ hg => absurd hg readStep_ne, .refl (fun _ => id) ?_ ?_⟩ <;>
      rcases readStep_event s.mem i name rd with hx | ⟨_, hx⟩ | ⟨_, hx⟩ <;> rw [hx] <;>
      simp [isCommit]
  | got hr =>
    exact ⟨c, h.of_reader (by simp), .refl (fun _ => id) (fun _ => rfl) (by simp)⟩

/-- A fresh area has no entries. -/
theorem World.init (h : Init s) :
    World ⟨.ofInv areaInv_newRw, fun _ => 0⟩ s := by
  obtain ⟨hm, ha, hu, hr⟩ := h
  have hempty : ∀ off, ¬ IsShort Shape.empty off := by
    rintro off ⟨n, e, he, -⟩
    cases he
  refine ⟨?_, ⟨fun off ho => absurd ho (hempty off), fun off ho => absurd ho (hempty off),
    (fun n e he => by cases he), ?_⟩, fun name e hl => ?_, ?_, fun i name o next hi => ?_⟩
  · rw [hm]
    exact ⟨areaInv_newRw.rep.children, areaInv_newRw.rep.prop, areaInv_newRw.rep.tree⟩
  · rw [hu]
    trivial
  · obtain ⟨k, -, he⟩ := Option.bind_eq_some_iff.mp hl
    cases he
  · rw [ha, hu, hm]
    exact ⟨_, areaInv_newRw, fun _ => rfl, fun off hd => by cases hd⟩
  · rw [hr i] at hi
    cases hi

/-- **Every state** of every run has contents. -/
theorem Run.world {H : List Event} (h : Run H s) : ∃ c, World c s := by
  induction h with
  | start hs => exact ⟨_, .init hs⟩
  | snoc _ hs ih =>
    obtain ⟨c, hw⟩ := ih
    obtain ⟨c', hw', -⟩ := hw.step hs
    exact ⟨c', hw'⟩

end Shared

end RsProperties
