import RsProperties.InfoTrie.Trie

/-!
# Working at a path of the trie

`descend f parts` walks down to a path, creating the nodes that are missing, and works on the node at its
end. Seen from outside (`flat`, the contents of the node at every path), it changes a single path, and creates
the missing nodes above it with nothing in them.
-/

namespace RsProperties.InfoTrie

open ByteMem TrieBuilderNode StateExcept

/-- A node without its children. -/
structure Level where
  entry : PropertyEntryBuilder
  prefixes : List PropertyEntryBuilder
  exactMatches : List PropertyEntryBuilder
  deriving DecidableEq, Repr

def level (node : TrieBuilderNode) : Level where
  entry := node.propertyEntry
  prefixes := node.prefixes
  exactMatches := node.exactMatches

/-- The contents of the trie at a path. -/
def flat (root : TrieBuilderNode) (path : List Bytes) : Option Level := (get? path root).map level

/-- The contents of a node that was only just created. -/
def freshLevel (path : List Bytes) : Level := level (new (path.getLast?.getD []))

@[simp]
theorem flat_nil (root : TrieBuilderNode) : flat root [] = some (level root) := rfl

theorem flat_cons (root : TrieBuilderNode) (seg : Bytes) (path : List Bytes) :
    flat root (seg :: path) = (child root seg).bind fun c => flat c path := by
  rw [flat, get?, Option.map_bind]
  rfl

theorem flat_new (name : Bytes) {path : List Bytes} (h : path ≠ []) : flat (new name) path = none := by
  cases path with
  | nil => exact absurd rfl h
  | cons seg path => rfl

theorem freshLevel_cons (seg : Bytes) {path : List Bytes} (h : path ≠ []) :
    freshLevel (seg :: path) = freshLevel path := by
  obtain ⟨p, path, rfl⟩ := List.exists_cons_of_ne_nil h
  simp [freshLevel]

/-! ### One child -/

/-- The child of a list under a key. -/
def childOf (children : List TrieBuilderNode) (seg : Bytes) : Option TrieBuilderNode :=
  children.find? fun c => decide (c.key = seg)

theorem updateChildren_eq_ok {part : Bytes} {f : TrieBuilderNode → Except Error TrieBuilderNode}
    (hkey : ∀ n n', f n = .ok n' → n'.key = n.key) {cs cs' : List TrieBuilderNode}
    (h : updateChildren part f cs = .ok cs') :
    (∃ c, f ((childOf cs part).getD (new part)) = .ok c ∧ childOf cs' part = some c) ∧
      (∀ k, k ≠ part → childOf cs' k = childOf cs k) ∧
      cs'.map key = if part ∈ cs.map key then cs.map key else cs.map key ++ [part] := by
  induction cs generalizing cs' with
  | nil =>
    obtain ⟨c, hc, h⟩ := except_bind_eq_ok.mp h
    cases h
    have hk : c.key = part := hkey _ _ hc
    refine ⟨⟨c, hc, by simp [childOf, hk]⟩, fun k hne => ?_, by simp [hk]⟩
    have : c.key ≠ k := fun e => hne (e ▸ hk)
    simp [childOf, this]
  | cons d cs ih =>
    rw [updateChildren] at h
    split_ifs at h with hd
    · obtain ⟨c, hc, h⟩ := except_bind_eq_ok.mp h
      cases h
      have hk : c.key = part := (hkey _ _ hc).trans hd
      refine ⟨⟨c, by simpa [childOf, hd] using hc, by simp [childOf, hk]⟩, fun k hne => ?_,
        by simp [hk, hd]⟩
      have hck : c.key ≠ k := fun e => hne (e ▸ hk)
      have hdk : d.key ≠ k := fun e => hne (e ▸ hd)
      simp [childOf, hck, hdk]
    · obtain ⟨cs1, hcs, h⟩ := except_bind_eq_ok.mp h
      cases h
      obtain ⟨⟨c, hc, hfind⟩, hother, hkeys⟩ := ih hcs
      have hpd : part ≠ d.key := fun e => hd e.symm
      refine ⟨⟨c, ?_, ?_⟩, fun k hne => ?_, ?_⟩
      · simpa [childOf, hd] using hc
      · simpa [childOf, hd] using hfind
      · have := hother k hne
        by_cases hdk : d.key = k
        · simp [childOf, hdk]
        · simpa [childOf, hdk] using this
      · rw [List.map_cons, hkeys]
        by_cases hm : part ∈ cs.map key
        · simp [hm]
        · simp [hm, hpd]

/-- What `updateChild` does: the child under the key changes, the node's own contents and the other
children stay. -/
theorem updateChild_eq_ok {part : Bytes} {f : TrieBuilderNode → Except Error TrieBuilderNode}
    (hkey : ∀ n n', f n = .ok n' → n'.key = n.key) {node node' : TrieBuilderNode}
    (h : updateChild part f node = .ok node') :
    level node' = level node ∧
      (∃ c, f ((child node part).getD (new part)) = .ok c ∧ child node' part = some c) ∧
      (∀ k, k ≠ part → child node' k = child node k) ∧
      node'.children.map key =
        if part ∈ node.children.map key then node.children.map key
        else node.children.map key ++ [part] := by
  obtain ⟨cs, hcs, h⟩ := except_bind_eq_ok.mp h
  cases h
  exact ⟨rfl, updateChildren_eq_ok hkey hcs⟩

/-- Working on a child fails exactly when the work on it fails. -/
theorem updateChildren_eq_error {part : Bytes}
    {f : TrieBuilderNode → Except Error TrieBuilderNode} {cs : List TrieBuilderNode} {e : Error} :
    updateChildren part f cs = .error e ↔ f ((childOf cs part).getD (new part)) = .error e := by
  induction cs with
  | nil =>
    rw [updateChildren]
    cases hf : f (new part) with
    | error e' => simp [childOf, hf, bind, Except.bind]
    | ok c => simp [childOf, hf, bind, Except.bind, pure, Except.pure]
  | cons d cs ih =>
    rw [updateChildren]
    by_cases hd : d.key = part
    · rw [if_pos hd]
      have hfind : childOf (d :: cs) part = some d := by simp [childOf, hd]
      rw [hfind, Option.getD_some]
      cases hf : f d with
      | error e' => simp [bind, Except.bind]
      | ok c => simp [bind, Except.bind, pure, Except.pure]
    · rw [if_neg hd]
      have hfind : childOf (d :: cs) part = childOf cs part := by simp [childOf, hd]
      rw [hfind, ← ih]
      cases hu : updateChildren part f cs with
      | error e' => simp [bind, Except.bind]
      | ok c => simp [bind, Except.bind, pure, Except.pure]

theorem updateChild_eq_error {part : Bytes} {f : TrieBuilderNode → Except Error TrieBuilderNode}
    {node : TrieBuilderNode} {e : Error} :
    updateChild part f node = .error e ↔ f ((child node part).getD (new part)) = .error e := by
  rw [show child node part = childOf node.children part from rfl, ← updateChildren_eq_error,
    updateChild]
  cases hu : updateChildren part f node.children with
  | error e' => simp [bind, Except.bind]
  | ok c => simp [bind, Except.bind, pure, Except.pure]

/-! ### A path -/

/-- The node a descent works on: the one at the path, or a fresh one. -/
def nodeAt (root : TrieBuilderNode) (path : List Bytes) : TrieBuilderNode :=
  (get? path root).getD (new (path.getLast?.getD []))

theorem nodeAt_cons (root : TrieBuilderNode) (part : Bytes) (path : List Bytes) :
    nodeAt root (part :: path) = nodeAt ((child root part).getD (new part)) path := by
  rw [nodeAt, nodeAt, get?]
  cases child root part with
  | some c =>
    cases path with
    | nil => rfl
    | cons p path => simp
  | none =>
    cases path with
    | nil => rfl
    | cons p path =>
      have hnone : get? (p :: path) (new part) = none := rfl
      simp [hnone]

theorem level_nodeAt (root : TrieBuilderNode) (path : List Bytes) :
    level (nodeAt root path) = (flat root path).getD (freshLevel path) := by
  rw [nodeAt, flat, freshLevel]
  cases get? path root <;> rfl

/-- A descent fails exactly when the work at its end does. -/
theorem descend_eq_error {f : TrieBuilderNode → Except Error TrieBuilderNode} {parts : List Bytes}
    {root : TrieBuilderNode} {e : Error} :
    descend f parts root = .error e ↔ f (nodeAt root parts) = .error e := by
  induction parts generalizing root with
  | nil => rfl
  | cons part parts ih => rw [descend, updateChild_eq_error, ih, nodeAt_cons]

/-- Working on a child at the end is descending one step further. -/
theorem descend_snoc (f : TrieBuilderNode → Except Error TrieBuilderNode) (parts : List Bytes)
    (last : Bytes) :
    descend (updateChild last f) parts = descend f (parts ++ [last]) := by
  induction parts with
  | nil => rfl
  | cons part parts ih =>
    funext node
    rw [List.cons_append, descend, descend, ih]

/-- Work on a node's own contents: the children and the key stay. -/
structure LocalStep (f : TrieBuilderNode → Except Error TrieBuilderNode) (R : Level → Level → Prop) :
    Prop where
  children : ∀ {n n'}, f n = .ok n' → n'.children = n.children
  key : ∀ {n n'}, f n = .ok n' → n'.key = n.key
  rel : ∀ {n n'}, f n = .ok n' → R (level n) (level n')

theorem descend_key {f : TrieBuilderNode → Except Error TrieBuilderNode}
    (hf : ∀ n n', f n = .ok n' → n'.key = n.key) (parts : List Bytes) :
    ∀ n n', descend f parts n = .ok n' → n'.key = n.key := by
  cases parts with
  | nil => exact hf
  | cons part parts =>
    intro n n' h
    obtain ⟨cs, _, h⟩ := except_bind_eq_ok.mp h
    cases h
    rfl

/-- **The effect of a descent**: at its path the contents are stepped, above it missing nodes appear
empty, and every other path keeps its contents. -/
theorem flat_descend {f : TrieBuilderNode → Except Error TrieBuilderNode} {R : Level → Level → Prop}
    (hf : LocalStep f R) {parts : List Bytes} {root root' : TrieBuilderNode}
    (h : descend f parts root = .ok root') :
    (∃ l, flat root' parts = some l ∧ R ((flat root parts).getD (freshLevel parts)) l) ∧
      ∀ path, path ≠ parts → flat root' path =
        if path <+: parts then some ((flat root path).getD (freshLevel path))
        else flat root path := by
  induction parts generalizing root root' with
  | nil =>
    refine ⟨⟨level root', rfl, hf.rel h⟩, fun path hne => ?_⟩
    obtain ⟨seg, path, rfl⟩ := List.exists_cons_of_ne_nil hne
    have hc : child root' seg = child root seg := by
      unfold child
      rw [hf.children h]
    rw [if_neg (by simp), flat_cons, flat_cons, hc]
  | cons part parts ih =>
    rw [descend] at h
    obtain ⟨hlevel, ⟨c, hc, hchild⟩, hother, -⟩ :=
      updateChild_eq_ok (descend_key (fun _ _ => hf.key) parts) h
    obtain ⟨⟨l, hl, hR⟩, hrest⟩ := ih hc
    -- below `part`, the old trie is the child that was there, or a fresh one
    have hold : ∀ path, (flat root (part :: path)).getD (freshLevel (part :: path)) =
        (flat ((child root part).getD (new part)) path).getD (freshLevel path) := by
      intro path
      rw [flat_cons]
      cases child root part with
      | some d =>
        cases path with
        | nil => rfl
        | cons p path => rw [freshLevel_cons part (by simp)]; rfl
      | none =>
        cases path with
        | nil => rfl
        | cons p path => rw [freshLevel_cons part (by simp)]; rfl
    refine ⟨⟨l, ?_, ?_⟩, fun path hne => ?_⟩
    · rw [flat_cons, hchild]
      exact hl
    · rw [hold]
      exact hR
    · cases path with
      | nil => simp [hlevel]
      | cons seg path =>
        by_cases hseg : seg = part
        · subst hseg
          have hne' : path ≠ parts := fun e => hne (by rw [e])
          rw [flat_cons, hchild, Option.bind_some, hrest path hne', hold]
          simp only [List.cons_prefix_cons, true_and]
          split_ifs with hp
          · rfl
          · have hpne : path ≠ [] := fun e => hp (e ▸ List.nil_prefix)
            rw [flat_cons]
            cases child root seg with
            | some d => rfl
            | none => exact flat_new seg hpne
        · rw [flat_cons, flat_cons, hother seg hseg, if_neg (by simp [hseg])]

/-! ### The keys -/

/-- Everywhere in the trie, the keys of the children are distinct names. -/
def KeysOk (root : TrieBuilderNode) : Prop := ∀ path node, get? path root = some node →
  (∀ k ∈ node.children.map key, SegName k) ∧ (node.children.map key).Nodup

theorem keysOk_new (name : Bytes) : KeysOk (new name) := by
  intro path node h
  cases path with
  | nil =>
    cases h
    exact ⟨by simp [new], by simp [new]⟩
  | cons seg path => cases h

theorem KeysOk.child {root c : TrieBuilderNode} (h : KeysOk root) {seg : Bytes}
    (hc : child root seg = some c) : KeysOk c := by
  intro path node hn
  refine h (seg :: path) node ?_
  rw [get?, hc]
  exact hn

/-- A trie whose node has good keys and whose children are good is good. -/
theorem keysOk_of_children {root : TrieBuilderNode}
    (hroot : (∀ k ∈ root.children.map key, SegName k) ∧ (root.children.map key).Nodup)
    (hc : ∀ seg c, InfoTrie.child root seg = some c → KeysOk c) : KeysOk root := by
  intro path node hn
  cases path with
  | nil =>
    cases hn
    exact hroot
  | cons seg path =>
    rw [get?] at hn
    obtain ⟨c, hchild, hn⟩ := Option.bind_eq_some_iff.mp hn
    exact hc seg c hchild path node hn

theorem keysOk_descend {f : TrieBuilderNode → Except Error TrieBuilderNode}
    {R : Level → Level → Prop} (hf : LocalStep f R) {parts : List Bytes}
    (hparts : ∀ p ∈ parts, SegName p) {root root' : TrieBuilderNode} (hok : KeysOk root)
    (h : descend f parts root = .ok root') : KeysOk root' := by
  induction parts generalizing root root' with
  | nil =>
    have hch := hf.children h
    refine keysOk_of_children (hch ▸ hok [] root rfl) fun seg c hc => ?_
    have hold : InfoTrie.child root seg = some c := by
      rw [← hc]
      unfold InfoTrie.child
      rw [hch]
    exact hok.child hold
  | cons part parts ih =>
    rw [descend] at h
    obtain ⟨-, ⟨c, hc, hchild⟩, hother, hkeys⟩ :=
      updateChild_eq_ok (descend_key (fun _ _ => hf.key) parts) h
    obtain ⟨hnames, hnodup⟩ := hok [] root rfl
    refine keysOk_of_children ?_ fun seg d hd => ?_
    · rw [hkeys]
      split_ifs with hm
      · exact ⟨hnames, hnodup⟩
      · refine ⟨fun k hk => ?_, List.nodup_append.mpr ⟨hnodup, by simp, by simpa using hm⟩⟩
        rcases List.mem_append.mp hk with hk | hk
        · exact hnames k hk
        · exact (List.mem_singleton.mp hk) ▸ hparts part (by simp)
    · by_cases hseg : seg = part
      · subst hseg
        obtain rfl : c = d := Option.some.inj (hchild.symm.trans hd)
        refine ih (fun p hp => hparts p (by simp [hp])) ?_ hc
        cases hold : InfoTrie.child root seg with
        | none => exact keysOk_new seg
        | some d => exact hok.child hold
      · rw [hother seg hseg] at hd
        exact hok.child hd

end RsProperties.InfoTrie
