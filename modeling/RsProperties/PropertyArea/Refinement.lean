import RsProperties.PropertyArea.Add

/-!
# The property area refines a finite map

`AreaRun` are the runs of a fresh area under `add`, `find` and `backup_and_apply_write`, each with
the map it stands for and the offsets `find` has returned so far. Along every run the area keeps
representing a shape whose lookups are the map (`AreaRun.exists_shape`), so `find` and the readers
answer by the map, and an offset once returned stays the name's offset.
-/

namespace RsProperties

open ByteMem StateExcept PropertyAreaMap

section Results

variable {ε σ α : Type}

/-- The state after an operation, failed or not. -/
def finalState : EStateM.Result ε σ α → σ
  | .ok _ s => s
  | .error _ s => s

/-- The operation succeeded. -/
def succeeded : EStateM.Result ε σ α → Bool
  | .ok _ _ => true
  | .error _ _ => false

end Results

/-- The map after an `add`: the first successful one of a name binds it. -/
def mapAdd (M : Bytes → Option Bytes) (name value : Bytes) (ok : Bool) : Bytes → Option Bytes :=
  if ok && (M name).isNone then Function.update M name (some value) else M

/-- The map after an update. -/
def mapUpdate (M : Bytes → Option Bytes) (name value : Bytes) (ok : Bool) : Bytes → Option Bytes :=
  if ok then Function.update M name (some value) else M

/-- Runs from a fresh area: the area reached, the map it stands for and the pairs of a name and an
offset that `find` has returned on the way. -/
inductive AreaRun : PropertyAreaMap → (Bytes → Option Bytes) → List (Bytes × ℕ) → Prop
  | init : AreaRun newRw (fun _ => none) []
  | add {pa : PropertyAreaMap} {M : Bytes → Option Bytes} {seen : List (Bytes × ℕ)}
      (h : AreaRun pa M seen) (name : Bytes) {value : Bytes} (hv : 0 ∉ value) :
      AreaRun (finalState (PropertyAreaMap.add name value pa))
        (mapAdd M name value (succeeded (PropertyAreaMap.add name value pa))) seen
  | find {pa : PropertyAreaMap} {M : Bytes → Option Bytes} {seen : List (Bytes × ℕ)}
      (h : AreaRun pa M seen) {name : Bytes} {off : ℕ} (hf : pa.find name = .ok off) :
      AreaRun pa M ((name, off) :: seen)
  | update {pa : PropertyAreaMap} {M : Bytes → Option Bytes} {seen : List (Bytes × ℕ)}
      (h : AreaRun pa M seen) {name : Bytes} {off : ℕ} (hf : (name, off) ∈ seen) (backup : Bytes)
      {value : Bytes} (hv : 0 ∉ value) :
      AreaRun (finalState (backupAndApplyWrite off backup value pa))
        (mapUpdate M name value (succeeded (backupAndApplyWrite off backup value pa))) seen

/-! ### One step -/

section Steps

variable {pa : PropertyAreaMap} {g : Shape}

theorem toMap_eq_of_lookup {g' : Shape} (h : g'.lookup = g.lookup) : g'.toMap = g.toMap := by
  funext name
  rw [Shape.toMap, h, Shape.toMap]

theorem toMap_eq_update {g' : Shape} {name : Bytes} {e : Entry}
    (h : g'.lookup = Function.update g.lookup name (some e)) :
    g'.toMap = Function.update g.toMap name (some e.value) := by
  funext name'
  rw [Shape.toMap, h]
  by_cases hn : name' = name
  · rw [hn, Function.update_self, Function.update_self]
    rfl
  · rw [Function.update_of_ne hn, Function.update_of_ne hn]
    rfl

/-- What `add` does to the map represented. It binds an absent name and nothing else: the entries of
the bound names stay. -/
theorem AreaInv.add_step (h : AreaInv pa g) (name : Bytes) {value : Bytes} (hv : 0 ∉ value) :
    ∃ g', AreaInv (finalState (PropertyAreaMap.add name value pa)) g' ∧
      g'.toMap = mapAdd g.toMap name value (succeeded (PropertyAreaMap.add name value pa)) ∧
      ∀ name' e, g.lookup name' = some e → g'.lookup name' = some e := by
  have hspec := h.add_spec name hv
  generalize PropertyAreaMap.add name value pa = res at hspec ⊢
  cases hspec with
  | refused => exact ⟨g, h, rfl, fun _ _ hl => hl⟩
  | full _ _ hinv _ _ hlookup =>
    exact ⟨_, hinv, toMap_eq_of_lookup hlookup, fun _ _ hl => hlookup ▸ hl⟩
  | @kept pa' g' e _ hl hinv _ _ hlookup =>
    refine ⟨_, hinv, ?_, fun _ _ hl => hlookup ▸ hl⟩
    rw [toMap_eq_of_lookup hlookup, mapAdd, Shape.toMap, hl]
    rfl
  | bound _ hl hinv _ _ hlookup =>
    refine ⟨_, hinv, ?_, fun name' e hl' => ?_⟩
    · rw [toMap_eq_update hlookup, mapAdd, if_pos]
      rw [Shape.toMap, hl]
      rfl
    · have hne : name' ≠ name := by
        rintro rfl
        rw [hl] at hl'
        cases hl'
      rw [hlookup, Function.update_of_ne hne, hl']

theorem AreaInv.update_step (h : AreaInv pa g) {name : Bytes} {e : Entry}
    (hl : g.lookup name = some e) (backup : Bytes) {value : Bytes} (hv : 0 ∉ value) :
    ∃ g', AreaInv (finalState (backupAndApplyWrite e.off backup value pa)) g' ∧
      g'.toMap = mapUpdate g.toMap name value
        (succeeded (backupAndApplyWrite e.off backup value pa)) ∧
      ∀ name' e', g.lookup name' = some e' →
        ∃ e'', g'.lookup name' = some e'' ∧ e''.off = e'.off := by
  obtain ⟨n, he, hname⟩ := h.wf.lookup_eq_some_iff.mp hl
  have hspec := h.update_spec he backup hv
  generalize backupAndApplyWrite e.off backup value pa = res at hspec ⊢
  cases hspec with
  | refused => exact ⟨g, h, rfl, fun _ e' hl' => ⟨e', hl', rfl⟩⟩
  | failed _ _ hinv => exact ⟨g, hinv, rfl, fun _ e' hl' => ⟨e', hl', rfl⟩⟩
  | @updated m _ _ _ hinv hs _ =>
    have hused : (pa.withData m).bytesUsed = pa.bytesUsed := by
      obtain ⟨-, hlow, -⟩ := h.entry_bounds he
      exact (readU32_congr (hs 0 4 (by omega) (by omega))).symm
    have hlookup := h.wf.lookup_bindEntry (hused ▸ hinv.wf)
    rw [hname] at hlookup
    refine ⟨_, hinv, toMap_eq_update hlookup, fun name' e' hl' => ?_⟩
    rw [hlookup]
    by_cases hn : name' = name
    · rw [hn, hl] at hl'
      obtain rfl := Option.some.inj hl'
      rw [hn, Function.update_self]
      exact ⟨_, rfl, rfl⟩
    · exact ⟨e', by rw [Function.update_of_ne hn, hl'], rfl⟩

end Steps

/-! ### Whole runs -/

theorem toMap_empty : Shape.empty.toMap = fun _ => none := by
  funext name
  obtain ⟨seg, segs, hs⟩ := List.exists_cons_of_ne_nil (splitDot_ne_nil name)
  rw [Shape.toMap, Shape.lookup, hs]
  rfl

/-- Along every run the area represents a shape with the run's map, and the offsets returned so far
are still those of their names. -/
theorem AreaRun.exists_shape {pa : PropertyAreaMap} {M : Bytes → Option Bytes}
    {seen : List (Bytes × ℕ)} (h : AreaRun pa M seen) :
    ∃ g, AreaInv pa g ∧ g.toMap = M ∧
      ∀ p ∈ seen, ∃ e, g.lookup p.1 = some e ∧ e.off = p.2 := by
  induction h with
  | init => exact ⟨.empty, areaInv_newRw, toMap_empty, by simp⟩
  | add _ name hv ih =>
    obtain ⟨g, hinv, rfl, hseen⟩ := ih
    obtain ⟨g', hinv', hmap, hkeep⟩ := hinv.add_step name hv
    refine ⟨g', hinv', hmap, fun p hp => ?_⟩
    obtain ⟨e, he, ho⟩ := hseen p hp
    exact ⟨e, hkeep _ _ he, ho⟩
  | find _ hf ih =>
    obtain ⟨g, hinv, rfl, hseen⟩ := ih
    refine ⟨g, hinv, rfl, fun p hp => ?_⟩
    rcases List.mem_cons.mp hp with rfl | hp
    · exact hinv.find_eq_ok_iff.mp hf
    · exact hseen p hp
  | update _ hf backup hv ih =>
    obtain ⟨g, hinv, rfl, hseen⟩ := ih
    obtain ⟨e, hl, rfl⟩ := hseen _ hf
    obtain ⟨g', hinv', hmap, hkeep⟩ := hinv.update_step hl backup hv
    refine ⟨g', hinv', hmap, fun p hp => ?_⟩
    obtain ⟨e', he', ho'⟩ := hseen p hp
    obtain ⟨e'', he'', ho''⟩ := hkeep _ _ he'
    exact ⟨e'', he'', ho''.trans ho'⟩

/-- **The area refines a finite map.** In every state of every run: `find` on a proper name reports
absence exactly for the names the map does not bind; for a bound name it returns an entry that
carries the name and reads the bound value; every offset returned earlier is still what `find`
returns; and an update of a short entry with a short value and a backup that fits always succeeds,
so the map is rebound. -/
theorem area_refines_map {pa : PropertyAreaMap} {M : Bytes → Option Bytes}
    {seen : List (Bytes × ℕ)} (h : AreaRun pa M seen) :
    (∀ name, ProperName name → M name = none → ∃ msg, pa.find name = .error (.notFound msg)) ∧
    (∀ name value, M name = some value → ∃ off, pa.find name = .ok off ∧
      pa.propertyInfoName off = .ok name ∧ pa.propertyValueBytes off = .ok value) ∧
    (∀ name off, (name, off) ∈ seen → pa.find name = .ok off) ∧
    (∀ name off old backup value, (name, off) ∈ seen → M name = some old →
      old.length < propValueMax → backup.length < propValueMax → value.length < propValueMax →
      0 ∉ value → succeeded (backupAndApplyWrite off backup value pa) = true) := by
  obtain ⟨g, hinv, rfl, hseen⟩ := h.exists_shape
  refine ⟨fun name hp hm => ?_, fun name value hm => ?_, fun name off hs => ?_,
    fun name off old backup value hs hm hold hb hval h0 => ?_⟩
  · have hl : g.lookup name = none := by simpa [Shape.toMap] using hm
    obtain ⟨e, hf, he | ⟨hs, -⟩⟩ := hinv.find_of_lookup_none hl
    · cases e with
      | notFound msg => exact ⟨msg, hf⟩
      | _ => cases he
    · exact absurd rfl (hp.2 [] hs)
  · obtain ⟨e, hl, rfl⟩ := Option.map_eq_some_iff.mp hm
    obtain ⟨n, he, rfl⟩ := hinv.wf.lookup_eq_some_iff.mp hl
    exact ⟨e.off, hinv.find_of_lookup hl, hinv.propertyInfoName_eq he,
      hinv.propertyValueBytes_eq he⟩
  · exact hinv.find_eq_ok_iff.mpr (hseen _ hs)
  · obtain ⟨e, hl, rfl⟩ := hseen _ hs
    obtain ⟨n, he, -⟩ := hinv.wf.lookup_eq_some_iff.mp hl
    have hev : e.value = old := by
      have hm' : g.toMap name = some e.value := by rw [Shape.toMap, hl]; rfl
      rw [hm'] at hm
      exact Option.some.inj hm
    have hspec := hinv.update_spec he backup h0
    generalize backupAndApplyWrite e.off backup value pa = res at hspec ⊢
    cases hspec with
    | refused hb' => exact absurd hb' (Nat.not_le.mpr hb)
    | failed _ hl' =>
      rw [hev] at hl'
      omega
    | updated => rfl

/-- A run on two names, one below the other: the lower one is found and updated after both are added. -/
theorem area_refines_map_nested : ∃ pa M off, AreaRun pa M [(ascii "a.b", off)] ∧
    pa.find (ascii "a.b") = .ok off ∧ pa.propertyValueBytes off = .ok (ascii "333") ∧
    (∃ off', pa.find (ascii "a") = .ok off' ∧ pa.propertyValueBytes off' = .ok (ascii "22")) ∧
    (∃ msg, pa.find (ascii "a.c") = .error (.notFound msg)) ∧
    succeeded (backupAndApplyWrite off (ascii "333") (ascii "4") pa) = true := by
  have hok : succeeded (PropertyAreaMap.add (ascii "a.b") (ascii "1") newRw) = true ∧
      succeeded (PropertyAreaMap.add (ascii "a") (ascii "22")
        (finalState (PropertyAreaMap.add (ascii "a.b") (ascii "1") newRw))) = true := by
    decide +kernel
  have h1 := AreaRun.add .init (ascii "a.b") (show 0 ∉ ascii "1" by decide)
  have h2 := h1.add (ascii "a") (show 0 ∉ ascii "22" by decide)
  rw [hok.1, hok.2] at h2
  obtain ⟨off, hf, -, -⟩ := (area_refines_map h2).2.1 (ascii "a.b") (ascii "1") (by decide)
  have h3 := h2.find hf
  have hupdate := (area_refines_map h3).2.2.2 (ascii "a.b") off (ascii "1") (ascii "1") (ascii "333")
    (by simp) (by decide) (by decide) (by decide) (by decide) (by decide)
  have h4 := h3.update (List.mem_singleton_self _) (ascii "1") (show 0 ∉ ascii "333" by decide)
  rw [hupdate] at h4
  obtain ⟨habsent, hbound, hseen, hagain⟩ := area_refines_map h4
  have hfound := hseen (ascii "a.b") off (by simp)
  obtain ⟨off₁, hf₁, -, hval⟩ := hbound (ascii "a.b") (ascii "333") (by decide)
  obtain rfl : off = off₁ := Except.ok.inj (hfound.symm.trans hf₁)
  obtain ⟨off', hf', -, hval'⟩ := hbound (ascii "a") (ascii "22") (by decide)
  exact ⟨_, _, off, h4, hfound, hval, ⟨off', hf', hval'⟩,
    habsent (ascii "a.c") (by decide) (by decide),
    hagain (ascii "a.b") off (ascii "333") (ascii "333") (ascii "4") (by simp) (by decide) (by decide)
      (by decide) (by decide) (by decide)⟩

end RsProperties
