import QBittorrent.Gui.ContentBuild
import QBittorrent.Lib.Machine

/-!
# The priorities of folders

`setPriority` goes down to the children and up to the parents, and stops at items that have the
priority already.

* `uniform_setPriorityBelow` : the way down;
* `updatePriority_spec` : the way up;
* `prioritized_run` : in every state folders have the common priority of their children.
-/

namespace QBittorrent.TorrentContent

open List LeafTree Option TorrentContentModel Machine

/-- The priority is the one that all have, if they have the same, and mixed otherwise. -/
def IsCommon (priority : DownloadPriority) (priorities : List DownloadPriority) : Prop :=
  (∀ prio, (∀ other ∈ priorities, other = prio) → priority = prio) ∧
    ((∀ prio, ¬ ∀ other ∈ priorities, other = prio) → priority = .mixed)

/-- At a place that is not the root there is no folder, or one with the common priority of its
children. -/
def Settled (root : Item) (place : List ℕ) : Prop :=
  ∀ fields children, root.at? place = some (.node fields children) →
    IsCommon fields.priority (children.map fun child => child.label.priority)

def Uniform (priority : DownloadPriority) (item : Item) : Prop :=
  ∀ place seen, item.look place = some seen → seen.label.priority = priority

/-- The folders have children. -/
def Filled (root : Item) : Prop :=
  ∀ place seen, place ≠ [] → root.look place = some seen → seen.index? = none → 0 < seen.count

def priorityAt (root : Item) (place : List ℕ) : Option DownloadPriority :=
  (root.look place).map fun seen => seen.label.priority

variable {root root' item : Item} {place parent l : List ℕ} {i : ℕ} {fields : Fields}
  {children : List Item} {prio newPriority : DownloadPriority} {priorities : List DownloadPriority}

/-! ### Common priorities -/

theorem isCommon_iff (h : priorities ≠ []) : IsCommon prio priorities ↔
    prio = commonPriority priorities := by
  obtain ⟨first, rest, rfl⟩ := exists_cons_of_ne_nil h
  rw [commonPriority]
  by_cases hall : (rest.all fun other => decide (other = first)) = true
  · have hrest : ∀ other ∈ first :: rest, other = first := by
      refine forall_mem_cons.2 ⟨rfl, fun other hother => ?_⟩
      exact of_decide_eq_true (all_eq_true.1 hall other hother)
    rw [if_pos hall]
    constructor
    · exact fun hcommon => hcommon.1 first hrest
    · rintro rfl
      exact ⟨fun p hp => hp prio mem_cons_self, fun hnone => absurd hrest (hnone prio)⟩
  · have hnone : ∀ p, ¬ ∀ other ∈ first :: rest, other = p := by
      intro p hp
      refine hall (all_eq_true.2 fun other hother => decide_eq_true ?_)
      rw [hp other (mem_cons_of_mem _ hother), hp first mem_cons_self]
    rw [if_neg hall]
    constructor
    · exact fun hcommon => hcommon.2 hnone
    · rintro rfl
      exact ⟨fun p hp => absurd hp (hnone p), fun _ => rfl⟩

theorem IsCommon.eq_of_mem (h : IsCommon prio priorities) (hmixed : prio ≠ .mixed) :
    ∀ other ∈ priorities, other = prio := by
  by_contra hnot
  refine hmixed (h.2 fun p hp => hnot fun other hother => ?_)
  rw [hp other hother, h.1 p hp]

theorem settled_congr (hplace : (root.look place).map (fun seen => (seen.index?, seen.label.priority,
      seen.count)) = (root'.look place).map fun seen =>
        (seen.index?, seen.label.priority, seen.count))
    (hchildren : ∀ i, priorityAt root (i :: place) = priorityAt root' (i :: place)) :
    Settled root place → Settled root' place := by
  intro h fields' children' hat'
  have hlook' : root'.look place = some (node fields' children').view := by
    rw [look, hat', map_some]
  rw [hlook', map_some] at hplace
  obtain ⟨seen, hseen, heq⟩ := map_eq_some_iff.1 hplace
  obtain ⟨s, hat, rfl⟩ := map_eq_some_iff.1 hseen
  simp only [Prod.mk.injEq] at heq
  obtain ⟨hindex, hpriority, hcount⟩ := heq
  cases s with
  | leaf index fields => cases hindex
  | node fields children =>
    have hmap : children.map (fun child => child.label.priority) =
        children'.map fun child => child.label.priority := by
      refine ext_getElem? fun i => ?_
      have hi := hchildren i
      rw [priorityAt, priorityAt, look, look, at?_cons,
        at?_cons, hat, hat', bind_some, bind_some, Option.map_map,
        Option.map_map] at hi
      rw [getElem?_map, getElem?_map]
      exact hi
    rw [← hmap, ← show fields.priority = fields'.priority from hpriority]
    exact h fields children hat

/-! ### The way down -/

theorem Uniform.node (h : fields.priority = prio) (hchildren : ∀ child ∈ children, Uniform prio child) :
    Uniform prio (.node fields children) := by
  intro place seen hseen
  cases place using reverseRecOn with
  | nil =>
    obtain rfl := some.inj hseen
    exact h
  | append_singleton r i =>
    rw [look_concat] at hseen
    obtain ⟨child, hchild, hseen⟩ := bind_eq_some_iff.1 hseen
    exact hchildren child (mem_of_getElem? hchild) r seen hseen

theorem Uniform.leaf {index : ℕ} (h : fields.priority = prio) : Uniform prio (.leaf index fields) := by
  intro place seen hseen
  cases place using reverseRecOn with
  | nil =>
    obtain rfl := some.inj hseen
    exact h
  | append_singleton r i =>
    rw [look_concat] at hseen
    cases hseen

theorem Settled.child (h : ∀ place, Settled (.node fields children) place) {child : Item}
    (hchild : child ∈ children) (place : List ℕ) : Settled child place := by
  obtain ⟨i, hi, rfl⟩ := mem_iff_getElem.1 hchild
  intro fields' children' hat
  refine h (place ++ [i]) fields' children' ?_
  rw [at?_append, at?_cons, at?_nil, bind_some,
    LeafTree.children, getElem?_eq_getElem hi, bind_some]
  exact hat

theorem uniform_of_settled (hmixed : prio ≠ .mixed) (item : Item) (h : ∀ place, Settled item place)
    (hprio : item.label.priority = prio) : Uniform prio item := by
  induction item using induction with
  | leaf index fields => exact Uniform.leaf hprio
  | node fields children ih =>
    refine Uniform.node hprio fun child hchild => ih child hchild (Settled.child h hchild) ?_
    have hcommon := h [] fields children rfl
    rw [show fields.priority = prio from hprio] at hcommon
    exact hcommon.eq_of_mem hmixed _ (mem_map_of_mem hchild)

theorem uniform_setPriorityBelow (hmixed : prio ≠ .mixed) (item : Item)
    (h : ∀ place, Settled item place) : Uniform prio (setPriorityBelow prio item) := by
  induction item using induction with
  | leaf index fields => exact Uniform.leaf rfl
  | node fields children ih =>
    rw [setPriorityBelow]
    by_cases hprio : fields.priority = prio
    · rw [if_pos hprio]
      exact uniform_of_settled hmixed _ h hprio
    · rw [if_neg hprio, if_neg hmixed, setPrioritiesBelow_eq_map]
      refine Uniform.node rfl fun child hchild => ?_
      obtain ⟨old, hold, rfl⟩ := mem_map.1 hchild
      exact ih old hold (Settled.child h hold)

theorem setPriorityBelow_eq_self (h : item.label.priority = prio) : setPriorityBelow prio item = item := by
  cases item with
  | leaf index fields =>
    rw [setPriorityBelow, ← show fields.priority = prio from h]
    rfl
  | node fields children =>
    rw [setPriorityBelow, if_pos (show fields.priority = prio from h)]

theorem updateChildren_eq_self
    (h : IsCommon fields.priority (children.map fun child => child.label.priority)) :
    updateChildren (.node fields children) = .node fields children := by
  rw [updateChildren]
  split_ifs with hmixed
  · rfl
  · have hmap : children.map (setPriorityBelow fields.priority) = children := by
      conv_rhs => rw [← map_id children]
      refine map_inj_left.2 fun child hchild => setPriorityBelow_eq_self ?_
      exact h.eq_of_mem hmixed _ (mem_map_of_mem hchild)
    rw [setPrioritiesBelow_eq_map, hmap]

/-! ### The way up -/

/-- All folders but the root are settled. -/
def Lawful (root : Item) : Prop := ∀ place, place ≠ [] → Settled root place

theorem priorityAt_withPriority (h : (root.look place).isSome) :
    priorityAt (root.modify (.relabel fun fields => fields.withPriority prio) place) l =
      if l = place then some prio else priorityAt root l := by
  rw [priorityAt, look_relabel]
  split_ifs with hl
  · obtain ⟨seen, hseen⟩ := isSome_iff_exists.1 h
    rw [hl, hseen]
    rfl
  · rfl

theorem settled_withPriority (h : (root.look (i :: parent)).isSome) (hl : l ≠ i :: parent)
    (hparent : l ≠ parent) (hsettled : Settled root l) :
    Settled (root.modify (.relabel fun fields => fields.withPriority prio) (i :: parent)) l := by
  refine settled_congr ?_ (fun j => ?_) hsettled
  · rw [look_relabel, if_neg hl]
  · rw [priorityAt_withPriority h, if_neg fun heq => hparent (cons.inj heq).2]

theorem Filled.sameTree (h : SameTree root root') (hfilled : Filled root) : Filled root' := by
  intro place seen hne hseen hnode
  have hplace := h place
  rw [hseen] at hplace
  generalize hold : root.look place = o at hplace
  cases hplace with
  | some hsame =>
    rw [← hsame.2.2]
    exact hfilled place _ hne hold (hsame.1.trans hnode)

theorem childPriorities_ne_nil (hfilled : Filled root) (hne : place ≠ [])
    (hat : root.at? place = some (.node fields children)) :
    (children.map fun child => child.label.priority) ≠ [] := by
  have hpos := hfilled place _ hne (by rw [look, hat, map_some]) rfl
  rw [Ne, map_eq_nil_iff]
  exact ne_nil_of_length_pos hpos

theorem updatePriority_spec (place : List ℕ) (root : Item) (hfilled : Filled root)
    (hfolder : IsFolder root place)
    (h : ∀ l, l <:+ place → l ≠ place → l ≠ [] → Settled root l) :
    (∀ l, l <:+ place → l ≠ [] → Settled (updatePriority place root) l) ∧
      ∀ l, ¬ l <:+ place → (updatePriority place root).at? l = root.at? l := by
  induction place generalizing root with
  | nil =>
    refine ⟨fun l hl hne => absurd (suffix_nil.1 hl) hne, fun l _ => ?_⟩
    rw [updatePriority, updatePriorityBy, if_pos rfl]
  | cons i parent ih =>
    obtain ⟨seen, hseen, hnode⟩ := hfolder
    obtain ⟨folder, hat, rfl⟩ := map_eq_some_iff.1 hseen
    have hsome : (root.look (i :: parent)).isSome := by rw [hseen]; rfl
    cases folder with
    | leaf index fields => cases hnode
    | node fields children =>
      have hchildren := childPriorities_ne_nil hfilled (cons_ne_nil _ _) hat
      rw [updatePriority, updatePriorityBy, if_neg (cons_ne_nil _ _), hat]
      simp only
      rw [setPriority, hat, childPriorities, LeafTree.children]
      simp only
      by_cases hprio : fields.priority =
          commonPriority (children.map fun child => child.label.priority)
      · rw [if_pos (show (node fields children).label.priority = _ from hprio)]
        refine ⟨fun l hl hne => ?_, fun l _ => rfl⟩
        by_cases heq : l = i :: parent
        · subst heq
          intro fields' children' hat'
          rw [hat] at hat'
          cases hat'
          exact (isCommon_iff hchildren).2 hprio
        · exact h l hl heq hne
      · rw [if_neg (show ¬ (node fields children).label.priority = _ from hprio)]
        generalize hcommon : commonPriority (children.map fun child => child.label.priority) = prio
          at hprio ⊢
        generalize hset : root.modify (.relabel fun fields => fields.withPriority prio) (i :: parent) =
          root'
        have hsame : SameTree root root' :=
          hset ▸ SameTree.modify (sameTree_relabel (sameItem_withPriority prio)) _ root
        obtain ⟨up, hup, hupnode, -⟩ := look_parent hsome
        obtain ⟨habove, hothers⟩ := ih root' (hfilled.sameTree hsame)
          (hsame.isFolder ⟨up, hup, hupnode⟩) fun l hl hlne hne => by
            rw [← hset]
            refine settled_withPriority hsome ?_ hlne
              (h l (hl.trans (suffix_cons ..)) ?_ hne)
            all_goals
              rintro rfl
              exact absurd hl.length_le (by rw [length_cons]; omega)
        rw [← updatePriority]
        have hnot : ¬ i :: parent <:+ parent := fun hsuffix =>
          absurd hsuffix.length_le (by rw [length_cons]; omega)
        have hat' : (updatePriority parent root').at? (i :: parent) =
            some (.node (fields.withPriority prio) children) := by
          rw [hothers _ hnot, ← hset, at?_modify_self, hat]
          rfl
        have hsettled : IsCommon (fields.withPriority prio).priority
            (children.map fun child => child.label.priority) :=
          (isCommon_iff hchildren).2 hcommon.symm
        rw [LeafTree.modify_eq_self fun s hs => by
          rw [hat'] at hs
          rw [← some.inj hs]
          exact updateChildren_eq_self hsettled]
        refine ⟨fun l hl hne => ?_, fun l hl => ?_⟩
        · obtain rfl | hl := suffix_cons_iff.1 hl
          · intro fields' children' heq
            rw [hat'] at heq
            cases heq
            exact hsettled
          · exact habove l hl hne
        · rw [suffix_cons_iff, not_or] at hl
          rw [hothers l hl.2, ← hset, at?_relabel_of_not_isSuffix]
          rw [suffix_cons_iff, not_or]
          exact hl

/-! ### Both ways -/

theorem Uniform.sub (h : Uniform prio item) {sub : Item} (hsub : item.at? place = some sub) :
    Uniform prio sub := by
  intro r seen hseen
  refine h (r ++ place) seen ?_
  rw [look_append, hsub]
  exact hseen

theorem Uniform.child (h : Uniform prio (.node fields children)) {child : Item}
    (hchild : child ∈ children) : Uniform prio child := by
  obtain ⟨j, hj, rfl⟩ := mem_iff_getElem.1 hchild
  have hat : (LeafTree.node fields children : Item).at? [j] = some children[j] := by
    rw [at?_cons, at?_nil, bind_some, LeafTree.children,
      getElem?_eq_getElem hj]
  exact h.sub hat

theorem Uniform.label (h : Uniform prio item) : item.label.priority = prio := h [] _ rfl

theorem Uniform.settled (h : Uniform prio item) (hat : root.at? place = some item)
    (hfilled : Filled root) (hne : place ≠ []) (r : List ℕ) : Settled root (r ++ place) := by
  intro fields children hat'
  have hchildren := childPriorities_ne_nil hfilled (by simp [hne]) hat'
  rw [at?_append, hat, bind_some] at hat'
  have hsub := h.sub hat'
  have hall : ∀ other ∈ children.map (fun child => child.label.priority), other = prio := by
    intro other hother
    obtain ⟨child, hchild, rfl⟩ := mem_map.1 hother
    exact (hsub.child hchild).label
  rw [show fields.priority = prio from hsub.label]
  refine ⟨fun p hp => ?_, fun hnone => absurd hall (hnone prio)⟩
  obtain ⟨other, hother⟩ := exists_mem_of_ne_nil _ hchildren
  rw [← hall other hother, hp other hother]

theorem label_updateChildren (item : Item) : (updateChildren item).label = item.label := by
  cases item with
  | leaf index fields => rfl
  | node fields children =>
    rw [updateChildren]
    split_ifs <;> rfl

theorem uniform_updateChildren (hsettled : ∀ place, Settled item place)
    (hprio : prio ≠ .mixed ∨ item.index?.isSome) :
    Uniform prio (updateChildren (item.relabel fun fields => fields.withPriority prio)) := by
  cases item with
  | leaf index fields => exact Uniform.leaf rfl
  | node fields children =>
    have hmixed : prio ≠ .mixed := hprio.resolve_right (by simp [index?])
    rw [relabel, updateChildren,
      if_neg (show ¬ (fields.withPriority prio).priority = .mixed from hmixed),
      setPrioritiesBelow_eq_map]
    refine Uniform.node rfl fun child hchild => ?_
    obtain ⟨old, hold, rfl⟩ := mem_map.1 hchild
    exact uniform_setPriorityBelow hmixed old (Settled.child hsettled hold)

/-- What a priority is set to, and what is left alone. -/
structure SetBelow (root root' : Item) (place : List ℕ) (prio : DownloadPriority) : Prop where
  lawful : Lawful root'
  below : ∀ l, (root.look l).isSome → place <:+ l → priorityAt root' l = some prio
  others : ∀ l, ¬ IsFolder root l → ¬ place <:+ l → priorityAt root' l = priorityAt root l

theorem setPriority_spec (hlawful : Lawful root) (hfilled : Filled root)
    (hat : root.at? place = some item) (hne : place ≠ [])
    (hprio : prio ≠ .mixed ∨ item.index?.isSome) :
    SetBelow root (setPriority place prio root) place prio := by
  obtain ⟨i, parent, rfl⟩ := exists_cons_of_ne_nil hne
  have hsettled : ∀ r, Settled item r := by
    intro r fields children hr
    refine hlawful (r ++ i :: parent) (by simp) fields children ?_
    rw [at?_append, hat]
    exact hr
  have hbelow : ∀ {root' item' : Item}, SameTree root root' →
      root'.at? (i :: parent) = some item' → Uniform prio item' →
      ∀ l, (root.look l).isSome → i :: parent <:+ l → priorityAt root' l = some prio := by
    rintro root' item' hsame hat' huniform l hsome ⟨r, rfl⟩
    obtain ⟨seen, hseen⟩ := isSome_iff_exists.1 hsome
    obtain ⟨seen', hseen', -⟩ := hsame.exists_look hseen
    rw [priorityAt, hseen', map_some]
    rw [look_append, hat'] at hseen'
    rw [huniform r seen' hseen']
  have hsome : (root.look (i :: parent)).isSome := by rw [look, hat]; rfl
  rw [setPriority, hat]
  simp only
  by_cases hsame : item.label.priority = prio
  · rw [if_pos hsame]
    refine ⟨hlawful, hbelow (SameTree.refl root) hat ?_, fun l _ _ => rfl⟩
    cases item with
    | leaf index fields => exact Uniform.leaf hsame
    | node fields children =>
      exact uniform_of_settled (hprio.resolve_right (by simp [index?])) _ hsettled hsame
  · rw [if_neg hsame, ← updatePriority]
    generalize hset : root.modify (.relabel fun fields => fields.withPriority prio) (i :: parent) =
      root₁
    have hsame₁ : SameTree root root₁ :=
      hset ▸ SameTree.modify (sameTree_relabel (sameItem_withPriority prio)) _ root
    obtain ⟨up, hup, hupnode, -⟩ := look_parent hsome
    have hsettled₁ : ∀ l, l ≠ i :: parent → l ≠ parent → l ≠ [] → Settled root₁ l :=
      fun l hl hlparent hlne => hset ▸ settled_withPriority hsome hl hlparent (hlawful l hlne)
    have hlonger : ∀ l, l <:+ parent → l ≠ i :: parent := by
      rintro l hl rfl
      exact absurd hl.length_le (by rw [length_cons]; omega)
    have hfilled₁ := hfilled.sameTree hsame₁
    obtain ⟨habove, hothers⟩ := updatePriority_spec parent root₁ hfilled₁
      (hsame₁.isFolder ⟨up, hup, hupnode⟩) fun l hl hlne hne =>
        hsettled₁ l (hlonger l hl) hlne hne
    have hsame₂ : SameTree root₁ (updatePriority parent root₁) :=
      sameTree_updatePriorityBy (fun prio root => sameTree_setPriority parent prio root) parent root₁
    generalize updatePriority parent root₁ = root₂ at habove hothers hsame₂ ⊢
    have hat₂ : root₂.at? (i :: parent) =
        some (item.relabel fun fields => fields.withPriority prio) := by
      rw [hothers _ fun hsuffix => hlonger _ hsuffix rfl, ← hset, at?_modify_self, hat]
      rfl
    have hsame₃ : SameTree root₂ (root₂.modify updateChildren (i :: parent)) :=
      SameTree.modify sameTree_updateChildren _ root₂
    have hat₃ : (root₂.modify updateChildren (i :: parent)).at? (i :: parent) =
        some (updateChildren (item.relabel fun fields => fields.withPriority prio)) := by
      rw [at?_modify_self, hat₂, map_some]
    have huniform := uniform_updateChildren hsettled hprio
    have hall := (hsame₁.trans hsame₂).trans hsame₃
    refine ⟨fun l hlne => ?_, hbelow hall hat₃ huniform, fun l hfile hl => ?_⟩
    · by_cases hl : i :: parent <:+ l
      · obtain ⟨r, rfl⟩ := hl
        exact huniform.settled hat₃ (hfilled.sameTree hall) hne r
      · have hsettled₂ : Settled root₂ l := by
          by_cases hlparent : l <:+ parent
          · exact habove l hlparent hlne
          · intro fields children hat'
            rw [hothers l hlparent] at hat'
            refine hsettled₁ l ?_ ?_ hlne fields children hat'
            · rintro rfl
              exact hl suffix_rfl
            · rintro rfl
              exact hlparent suffix_rfl
        refine settled_congr ?_ (fun j => ?_) hsettled₂
        · rw [look_modify_of_not_isSuffix hl]
        · by_cases hj : j :: l = i :: parent
          · rw [hj, priorityAt, priorityAt, look, look, hat₂, hat₃,
              map_some, map_some, map_some, map_some]
            exact congrArg some (congrArg Fields.priority (label_updateChildren _)).symm
          · rw [priorityAt, priorityAt, look_modify_of_not_isSuffix]
            rw [suffix_cons_iff, not_or]
            exact ⟨fun heq => hj heq.symm, hl⟩
    · have hlparent : ¬ l <:+ parent := by
        intro hsuffix
        by_cases heq : l = parent
        · exact hfile (heq ▸ ⟨up, hup, hupnode⟩)
        · exact hfile (isFolder_of_isSuffix _ (by rw [hup]; rfl) hsuffix heq)
      rw [priorityAt, look_modify_of_not_isSuffix hl, look, hothers l hlparent,
        ← look, ← priorityAt, ← hset, priorityAt_withPriority hsome, if_neg]
      rintro rfl
      exact hl suffix_rfl

/-! ### Runs -/

/-- What happens to the model. -/
inductive Event where
  | setItemPriority (place : List ℕ) (priority : DownloadPriority)
  | updateFilesPriorities (fprio : List DownloadPriority)
  | updateFilesProgress (filesProgress : List ℚ)
  | availabilityFetched (availableFileFractions : List ℚ)

/-- Users choose items below the root, and no mixed priority. -/
def Possible (m : TorrentContentModel) : Event → Prop
  | .setItemPriority place priority =>
    place ≠ [] ∧ (m.rootItem.look place).isSome = true ∧ priority ≠ .mixed
  | _ => True

instance (m : TorrentContentModel) : DecidablePred (Possible m) := fun e => by
  cases e <;> unfold Possible <;> infer_instance

def next (m : TorrentContentModel) : Event → TorrentContentModel
  | .setItemPriority place priority => m.setItemPriority place priority
  | .updateFilesPriorities fprio => m.updateFilesPriorities fprio
  | .updateFilesProgress filesProgress => m.updateFilesProgress filesProgress
  | .availabilityFetched availableFileFractions => m.availabilityFetched availableFileFractions

def machine : Machine TorrentContentModel Event := Machine.guarded Possible next

def IsFile (root : Item) (place : List ℕ) : Prop :=
  ∃ seen, root.look place = some seen ∧ seen.index?.isSome = true

/-- What holds between any two steps. -/
structure Kept (root : Item) (filesIndex : List (List ℕ)) : Prop where
  lawful : Lawful root
  filled : Filled root
  files : ∀ place ∈ filesIndex, place ≠ [] ∧ IsFile root place

variable {m : TorrentContentModel} {filesIndex : List (List ℕ)}

theorem IsFile.not_isFolder (h : IsFile root place) : ¬ IsFolder root place := by
  obtain ⟨seen, hseen, hindex⟩ := h
  rintro ⟨seen', hseen', hnode⟩
  rw [hseen] at hseen'
  obtain rfl := some.inj hseen'
  rw [hnode] at hindex
  cases hindex

theorem IsFile.sameTree (h : SameTree root root') (hfile : IsFile root place) :
    IsFile root' place := by
  obtain ⟨seen, hseen, hindex⟩ := hfile
  obtain ⟨seen', hseen', hindex', -⟩ := h.exists_look hseen
  exact ⟨seen', hseen', hindex' ▸ hindex⟩

def SamePriority (fields fields' : Fields) : Prop :=
  SameItem fields fields' ∧ fields.priority = fields'.priority

theorem SamePriority.refl (fields : Fields) : SamePriority fields fields := ⟨SameItem.refl _, rfl⟩

theorem SamePriority.trans (a b c : Fields) (h : SamePriority a b) (h' : SamePriority b c) :
    SamePriority a c := ⟨SameItem.trans _ _ _ h.1 h'.1, h.2.trans h'.2⟩

theorem samePriority_takeProgress (fields : Fields) (sums : ℚ × ℕ × ℕ) :
    SamePriority fields (fields.takeProgress sums) := by
  rw [Fields.takeProgress]
  split_ifs <;> exact ⟨⟨rfl, rfl⟩, rfl⟩

theorem samePriority_takeAvailability (fields : Fields) (sums : ℚ × ℕ × Bool) :
    SamePriority fields (fields.takeAvailability sums) := ⟨⟨rfl, rfl⟩, rfl⟩

theorem samePriority_setProgress (progress : ℚ) (fields : Fields) :
    SamePriority fields (fields.setProgress progress) := ⟨⟨rfl, rfl⟩, rfl⟩

theorem samePriority_setAvailability (availability : ℚ) (fields : Fields) :
    SamePriority fields (fields.setAvailability availability) := ⟨⟨rfl, rfl⟩, rfl⟩

section Alike

variable (h : LeafTree.Alike SamePriority root root')
include h

theorem sameTree_of_samePriority : SameTree root root' := by
  intro place
  have hplace := h place
  generalize root.look place = a at hplace
  generalize root'.look place = b at hplace
  cases hplace with
  | none => exact .none
  | some hseen => exact .some ⟨hseen.1, hseen.2.1.1, hseen.2.2⟩

theorem priorityAt_of_samePriority (place : List ℕ) : priorityAt root' place = priorityAt root place := by
  rw [priorityAt, priorityAt]
  have hplace := h place
  generalize root.look place = a at hplace
  generalize root'.look place = b at hplace
  cases hplace with
  | none => rfl
  | some hseen => exact congrArg some hseen.2.1.2.symm

theorem Kept.samePriority (hkept : Kept root filesIndex) : Kept root' filesIndex := by
  refine ⟨fun place hne => ?_, hkept.filled.sameTree (sameTree_of_samePriority h), fun place hplace => ?_⟩
  · refine settled_congr ?_ (fun i => (priorityAt_of_samePriority h _).symm) (hkept.lawful place hne)
    have hplace := h place
    generalize root.look place = a at hplace
    generalize root'.look place = b at hplace
    cases hplace with
    | none => rfl
    | some hseen =>
      rw [map_some, map_some, hseen.1, hseen.2.1.2, hseen.2.2]
  · exact ⟨(hkept.files place hplace).1,
      (hkept.files place hplace).2.sameTree (sameTree_of_samePriority h)⟩

end Alike

theorem samePriority_recalculated (root : Item) :
    LeafTree.Alike SamePriority root (m.recalculated root).rootItem :=
  (alike_recalculateRootProgress SamePriority.refl samePriority_takeProgress root).trans
    SamePriority.trans (alike_recalculateRootAvailability SamePriority.refl SamePriority.trans
      samePriority_takeAvailability (samePriority_setAvailability (-1)) _)

theorem Kept.setBelow (hkept : Kept root filesIndex) (hsame : SameTree root root')
    (h : SetBelow root root' place prio) : Kept root' filesIndex :=
  ⟨h.lawful, hkept.filled.sameTree hsame, fun l hl =>
    ⟨(hkept.files l hl).1, (hkept.files l hl).2.sameTree hsame⟩⟩

theorem kept_updateFilesPriorities (h : Kept m.rootItem m.filesIndex) (fprio : List DownloadPriority) :
    Kept (m.updateFilesPriorities fprio).rootItem (m.updateFilesPriorities fprio).filesIndex := by
  rw [filesIndex_updateFilesPriorities, updateFilesPriorities]
  split_ifs
  · exact h
  simp only [eachFile]
  have hentries : ∀ entry ∈ m.filesIndex.zip fprio, entry.1 ∈ m.filesIndex :=
    fun entry hentry => (of_mem_zip hentry).1
  generalize m.filesIndex.zip fprio = entries at hentries
  generalize m.rootItem = root at h
  induction entries generalizing root with
  | nil => exact h
  | cons entry entries ih =>
    obtain ⟨hentry, hentries⟩ := forall_mem_cons.1 hentries
    refine ih hentries _ ?_
    obtain ⟨hne, seen, hseen, hindex⟩ := h.files entry.1 hentry
    obtain ⟨item, hat, rfl⟩ := map_eq_some_iff.1 hseen
    exact h.setBelow (sameTree_setPriority entry.1 entry.2 root)
      (setPriority_spec h.lawful h.filled hat hne (.inr hindex))

theorem setPriority_eq_self (h : priorityAt root place = some prio) :
    setPriority place prio root = root := by
  cases place with
  | nil => rfl
  | cons i parent =>
    obtain ⟨seen, hseen, hprio⟩ := map_eq_some_iff.1 h
    obtain ⟨item, hat, rfl⟩ := map_eq_some_iff.1 hseen
    rw [setPriority, hat]
    exact if_pos hprio

theorem kept_setItemPriority (h : Kept m.rootItem m.filesIndex) (hne : place ≠ [])
    (hsome : (m.rootItem.look place).isSome = true) (hmixed : prio ≠ .mixed) :
    Kept (m.setItemPriority place prio).rootItem (m.setItemPriority place prio).filesIndex ∧
      ∀ l, IsFile m.rootItem l →
        (place <:+ l → priorityAt (m.setItemPriority place prio).rootItem l = some prio) ∧
        (¬ place <:+ l → priorityAt (m.setItemPriority place prio).rootItem l =
          priorityAt m.rootItem l) := by
  obtain ⟨seen, hseen⟩ := isSome_iff_exists.1 hsome
  obtain ⟨item, hat, rfl⟩ := map_eq_some_iff.1 hseen
  have hset := setPriority_spec h.lawful h.filled hat hne (.inl hmixed)
  have hfile : ∀ {root'}, SetBelow m.rootItem root' place prio → ∀ l, IsFile m.rootItem l →
      (place <:+ l → priorityAt root' l = some prio) ∧
        (¬ place <:+ l → priorityAt root' l = priorityAt m.rootItem l) := by
    rintro root' hbelow l hl
    refine ⟨hbelow.below l ?_, hbelow.others l hl.not_isFolder⟩
    obtain ⟨seen, hseen, -⟩ := hl
    rw [hseen]
    rfl
  rw [setItemPriority]
  split_ifs with hsame
  · rw [setPriority_eq_self hsame] at hset
    exact ⟨h, hfile hset⟩
  · have hshown := samePriority_recalculated (m := m) (setPriority place prio m.rootItem)
    refine ⟨(h.setBelow (sameTree_setPriority place prio m.rootItem) hset).samePriority hshown,
      fun l hl => ?_⟩
    rw [priorityAt_of_samePriority hshown]
    exact hfile hset l hl

theorem samePriority_eachFile {α : Type} {change : α → Fields → Fields}
    (hchange : ∀ value fields, SamePriority fields (change value fields)) (values : List α) :
    LeafTree.Alike SamePriority m.rootItem (m.eachFile (fun value root place =>
      root.modify (.relabel (change value)) place) values) :=
  eachFile_induction (LeafTree.Alike.refl SamePriority.refl)
    (fun _ _ _ => LeafTree.Alike.trans SamePriority.trans) (fun value _ place =>
      LeafTree.Alike.modify SamePriority.refl place fun item _ =>
        alike_relabel SamePriority.refl (hchange value) item) values

theorem kept_files {α : Type} {change : α → Fields → Fields}
    (hchange : ∀ value fields, SamePriority fields (change value fields)) (values : List α)
    (h : Kept m.rootItem m.filesIndex) : Kept (m.eachFile (fun value root place =>
      root.modify (.relabel (change value)) place) values) m.filesIndex :=
  Kept.samePriority (samePriority_eachFile hchange values) h

section

variable (h : Kept m.rootItem m.filesIndex)

include h

theorem kept_updateFilesProgress (filesProgress : List ℚ) :
    Kept (m.updateFilesProgress filesProgress).rootItem
      (m.updateFilesProgress filesProgress).filesIndex := by
  rw [updateFilesProgress]
  split_ifs
  · exact h
  · exact (kept_files samePriority_setProgress filesProgress h).samePriority
      (samePriority_recalculated _)

theorem kept_availabilityFetched (fractions : List ℚ) :
    Kept (m.availabilityFetched fractions).rootItem (m.availabilityFetched fractions).filesIndex := by
  rw [availabilityFetched]
  split_ifs
  · exact h
  · exact (kept_files samePriority_setAvailability fractions h).samePriority
      (alike_recalculateRootProgress SamePriority.refl samePriority_takeProgress _)

theorem kept_next {event : Event} (hpossible : Possible m event) :
    Kept (next m event).rootItem (next m event).filesIndex := by
  cases event with
  | setItemPriority place priority =>
    obtain ⟨hne, hsome, hmixed⟩ := hpossible
    exact (kept_setItemPriority h hne hsome hmixed).1
  | updateFilesPriorities fprio => exact kept_updateFilesPriorities h fprio
  | updateFilesProgress filesProgress => exact kept_updateFilesProgress h filesProgress
  | availabilityFetched fractions => exact kept_availabilityFetched h fractions

end

variable {files : List ContentFile}

theorem Built.filled (h : Built (foldersOf files) files root filesIndex) : Filled root := by
  intro place seen hne hseen hnode
  obtain ⟨path, hpath⟩ := isSome_iff_exists.1
    (itemPath_isSome_iff.2 (show (root.look place).isSome by rw [hseen]; rfl))
  obtain hnil | ⟨file, hfile, hprefix⟩ := (h.folder_iff path).1 ⟨place, ⟨seen, hseen, hnode⟩, hpath⟩
  · have hlength := length_of_itemPath hpath
    rw [hnil] at hlength
    exact absurd (length_eq_zero_iff.1 hlength.symm) hne
  · obtain ⟨i, hi, rfl⟩ := mem_iff_getElem.1 hfile
    obtain ⟨fileplace, item, -, hitem, -, -, hparts⟩ :=
      h.item_of_file i _ (getElem?_eq_getElem hi)
    have hpathne : path ≠ [] := by
      rintro rfl
      exact hne (length_eq_zero_iff.1 (length_of_itemPath hpath).symm)
    obtain _ | ⟨j, up⟩ := fileplace
    · have hfolders : pathFolders files[i] = [] := by
        rw [pathFolders, ← some.inj hparts]
        rfl
      rw [hfolders] at hprefix
      exact absurd (prefix_nil.1 hprefix) hpathne
    · obtain ⟨front, last, hfront, -, heq⟩ := itemPath_cons_eq_some_iff.1 hparts
      obtain ⟨above, habove, hnode', -⟩ := look_parent (show (root.look (j :: up)).isSome by
        rw [hitem]
        rfl)
      have hfolders : pathFolders files[i] = front := by
        rw [pathFolders, heq, dropLast_concat]
      rw [hfolders] at hprefix
      have hsuffix := (h.isSuffix_iff ⟨seen, hseen, hnode⟩ hpath ⟨above, habove, hnode'⟩ hfront).2
        hprefix
      obtain ⟨seen', hseen', -, hpos⟩ := exists_look_of_isSuffix
        (show (root.look (j :: up)).isSome by rw [hitem]; rfl)
        (hsuffix.trans (suffix_cons ..)) (by
          rintro rfl
          exact absurd hsuffix.length_le (by rw [length_cons]; omega))
      rw [hseen] at hseen'
      rw [some.inj hseen']
      exact hpos

theorem kept_build (h : ∀ file ∈ files, pathParts file ≠ []) :
    Kept (build files).rootItem (build files).filesIndex := by
  have hsound := sound_build h
  have hfilled := hsound.built.filled
  refine ⟨fun place hne => ?_, hfilled, fun place hplace => ?_⟩
  · cases hat : (build files).rootItem.at? place with
    | none =>
      intro fields children hat'
      rw [hat] at hat'
      cases hat'
    | some item =>
      have huniform : Uniform .normal item := by
        intro r seen hseen
        refine hsound.unset (r ++ place) seen ?_
        rw [look_append, hat]
        exact hseen
      exact huniform.settled hat hfilled hne []
  · obtain ⟨i, hi, rfl⟩ := mem_iff_getElem.1 hplace
    have hlength := hsound.built.length_filesIndex
    obtain ⟨place, seen, hplace, hseen, hindex, -, hpath⟩ := hsound.built.item_of_file i _
      (getElem?_eq_getElem (hlength ▸ hi))
    rw [getElem?_eq_getElem hi] at hplace
    rw [some.inj hplace]
    refine ⟨?_, seen, hseen, by rw [hindex]; rfl⟩
    rintro rfl
    exact h _ (getElem_mem _) (some.inj hpath).symm

theorem kept_populate (content : TorrentContentModel.Content)
    (h : ∀ file ∈ content.files, pathParts file ≠ []) :
    Kept (TorrentContentModel.populate content).rootItem
      (TorrentContentModel.populate content).filesIndex := by
  exact kept_updateFilesPriorities (kept_updateFilesProgress (kept_build h) _) _

theorem kept_run {content : TorrentContentModel.Content}
    (h : ∀ file ∈ content.files, pathParts file ≠ []) {events : List Event}
    (hrun : machine.run (TorrentContentModel.populate content) events = some m) :
    Kept m.rootItem m.filesIndex := by
  refine run_invariant (C := fun _ _ => True) (I := fun m => Kept m.rootItem m.filesIndex)
    (kept_populate content h) (fun m event m' hm _ hstep => ?_) meets_true hrun
  obtain ⟨hpossible, rfl⟩ := guarded_step_eq_some.1 hstep
  exact kept_next hm hpossible

/-- Each folder below the root has the common priority of its children, and a user's choice for an
item reaches exactly the files below it. -/
structure Prioritized (m : TorrentContentModel) : Prop where
  folders : ∀ place fields children, place ≠ [] →
    m.rootItem.at? place = some (.node fields children) →
    IsCommon fields.priority (children.map fun child => child.label.priority)
  choice : ∀ place priority, Possible m (.setItemPriority place priority) →
    ∀ l, IsFile m.rootItem l →
      (place <:+ l → priorityAt (m.setItemPriority place priority).rootItem l = some priority) ∧
      (¬ place <:+ l → priorityAt (m.setItemPriority place priority).rootItem l =
        priorityAt m.rootItem l)

/-- **The priorities of the content tree** are right in every state. -/
theorem prioritized_run {content : TorrentContentModel.Content}
    (h : ∀ file ∈ content.files, pathParts file ≠ []) {events : List Event}
    (hrun : machine.run (TorrentContentModel.populate content) events = some m) : Prioritized m := by
  have hkept := kept_run h hrun
  refine ⟨fun place fields children hne hat => hkept.lawful place hne fields children hat,
    fun place priority hpossible => ?_⟩
  obtain ⟨hne, hsome, hmixed⟩ := hpossible
  exact (kept_setItemPriority hkept hne hsome hmixed).2

theorem prioritized_nestedFolders : ∃ m, machine.run (TorrentContentModel.populate nestedFolders)
    [.setItemPriority [0, 0] .maximum, .updateFilesPriorities [.ignored, .high]] = some m ∧
      Prioritized m :=
  exists_run (by decide) fun _ hrun => prioritized_run (by decide) hrun

/-! ### The priorities of the files -/

/-- What an event does to the priorities of the files, in their order, without a tree. -/
def afterEvent (filesIndex : List (List ℕ)) (priorities : List DownloadPriority) :
    Event → List DownloadPriority
  | .setItemPriority place priority => (filesIndex.zip priorities).map fun file =>
    if place.isSuffixOf file.1 then priority else file.2
  | .updateFilesPriorities fprio => if filesIndex.length ≠ fprio.length then priorities else fprio
  | .updateFilesProgress _ | .availabilityFetched _ => priorities

theorem eq_of_isSuffix (hplace : IsFile root place) (hl : IsFile root l) (h : place <:+ l) :
    place = l := by
  by_contra hne
  obtain ⟨seen, hseen, -⟩ := hl
  exact hplace.not_isFolder (isFolder_of_isSuffix root (by rw [hseen]; rfl) h hne)

theorem Built.nodup {folders : List QString → Prop} (h : Built folders files root filesIndex) :
    filesIndex.Nodup := by
  have hindex (i : ℕ) (hi : i < filesIndex.length) :
      ∃ seen, root.look filesIndex[i] = some seen ∧ seen.index? = some i := by
    obtain ⟨place, seen, hplace, hseen, hindex, -⟩ := h.item_of_file i _
      (getElem?_eq_getElem (h.length_filesIndex ▸ hi))
    rw [getElem?_eq_getElem hi] at hplace
    exact ⟨seen, some.inj hplace ▸ hseen, hindex⟩
  refine nodup_iff_injective_get.2 fun i j hij => Fin.ext ?_
  obtain ⟨seen, hseen, hi⟩ := hindex i i.2
  obtain ⟨seen', hseen', hj⟩ := hindex j j.2
  rw [show filesIndex[i.1] = filesIndex[j.1] from hij, hseen'] at hseen
  rw [some.inj hseen, hi] at hj
  exact some.inj hj

/-- The loop over the files, if none of them occurs twice. -/
theorem priorityAt_foldl_setPriority {entries : List (List ℕ × DownloadPriority)}
    (hkept : Kept root filesIndex) (hentries : ∀ entry ∈ entries, entry.1 ∈ filesIndex)
    (hnodup : (entries.map Prod.fst).Nodup) (hl : IsFile root l) :
    let root' := entries.foldl (fun root entry => setPriority entry.1 entry.2 root) root
    (∀ prio, (l, prio) ∈ entries → priorityAt root' l = some prio) ∧
      (l ∉ entries.map Prod.fst → priorityAt root' l = priorityAt root l) := by
  induction entries generalizing root with
  | nil => exact ⟨nofun, fun _ => rfl⟩
  | cons entry entries ih =>
    obtain ⟨hentry, hentries⟩ := forall_mem_cons.1 hentries
    rw [map_cons, nodup_cons] at hnodup
    obtain ⟨hne, hfile⟩ := hkept.files entry.1 hentry
    obtain ⟨seen, hseen, hindex⟩ := id hfile
    obtain ⟨item, hat, rfl⟩ := map_eq_some_iff.1 hseen
    have hset : SetBelow root (setPriority entry.1 entry.2 root) entry.1 entry.2 :=
      setPriority_spec hkept.lawful hkept.filled hat hne (.inr hindex)
    have hsame := sameTree_setPriority entry.1 entry.2 root
    obtain ⟨hmem, hother⟩ := ih (hkept.setBelow hsame hset) hentries hnodup.2 (hl.sameTree hsame)
    rw [foldl_cons, map_cons]
    refine ⟨fun prio hprio => ?_, fun hnot => ?_⟩
    · obtain rfl | hprio := mem_cons.1 hprio
      · rw [hother hnodup.1]
        exact hset.below l (by rw [hseen]; rfl) (suffix_refl l)
      · exact hmem prio hprio
    · rw [mem_cons, not_or] at hnot
      rw [hother hnot.2]
      exact hset.others l hl.not_isFolder fun h => hnot.1 (eq_of_isSuffix hfile hl h).symm

theorem getFilePriorities_congr {m' : TorrentContentModel} (hfiles : m'.filesIndex = m.filesIndex)
    (h : LeafTree.Alike SamePriority m.rootItem m'.rootItem) :
    m'.getFilePriorities = m.getFilePriorities := by
  rw [getFilePriorities, getFilePriorities, hfiles]
  exact map_congr_left fun place _ => priorityAt_of_samePriority h place

/-- One event does to the tree what it does to the list. -/
theorem getFilePriorities_next {event : Event} (hkept : Kept m.rootItem m.filesIndex)
    (hnodup : m.filesIndex.Nodup) (hpossible : Possible m event)
    (hm : m.getFilePriorities = priorities.map some) : (next m event).filesIndex = m.filesIndex ∧
      (next m event).getFilePriorities = (afterEvent m.filesIndex priorities event).map some := by
  have hlength : m.filesIndex.length = priorities.length := by
    simpa [getFilePriorities] using congrArg length hm
  have hfile (i : ℕ) (hi : i < m.filesIndex.length) (hi' : i < priorities.length) :
      priorityAt m.rootItem m.filesIndex[i] = some priorities[i] := by
    have hget := getElem_of_eq hm (i := i) (by rwa [getFilePriorities, length_map])
    simp only [getFilePriorities, getElem_map] at hget
    exact hget
  cases event with
  | setItemPriority place priority =>
    obtain ⟨hne, hsome, hmixed⟩ := hpossible
    have hset := (kept_setItemPriority hkept hne hsome hmixed).2
    have hfiles : (m.setItemPriority place priority).filesIndex = m.filesIndex := by
      rw [setItemPriority]
      split_ifs <;> rfl
    refine ⟨hfiles, ?_⟩
    rw [next, getFilePriorities, hfiles]
    refine ext_getElem (by simp [afterEvent, hlength]) fun i hi _ => ?_
    rw [length_map] at hi
    have hset := hset _ (hkept.files _ (getElem_mem hi)).2
    simp only [afterEvent, getElem_map, getElem_zip]
    split_ifs with hsuffix
    · exact hset.1 (isSuffixOf_iff_suffix.1 hsuffix)
    · exact (hset.2 fun h => hsuffix (isSuffixOf_iff_suffix.2 h)).trans (hfile i hi _)
  | updateFilesPriorities fprio =>
    refine ⟨filesIndex_updateFilesPriorities fprio, ?_⟩
    rw [next, getFilePriorities, filesIndex_updateFilesPriorities, updateFilesPriorities, afterEvent]
    split_ifs with hfprio
    · exact hm
    rw [not_not] at hfprio
    refine ext_getElem (by simp [hfprio]) fun i hi _ => ?_
    rw [length_map] at hi
    rw [getElem_map, getElem_map]
    refine (priorityAt_foldl_setPriority hkept (fun entry hentry => (of_mem_zip hentry).1) ?_
      (hkept.files _ (getElem_mem hi)).2).1 _ (mem_iff_getElem.2 ⟨i, by simp [hi, ← hfprio], getElem_zip⟩)
    rwa [map_fst_zip hfprio.le]
  | updateFilesProgress filesProgress =>
    refine ⟨filesIndex_updateFilesProgress filesProgress, (getFilePriorities_congr
      (filesIndex_updateFilesProgress filesProgress) ?_).trans hm⟩
    rw [updateFilesProgress]
    split_ifs
    · exact LeafTree.Alike.refl SamePriority.refl _
    · exact (samePriority_eachFile samePriority_setProgress filesProgress).trans SamePriority.trans
        (samePriority_recalculated _)
  | availabilityFetched fractions =>
    have hfiles : (m.availabilityFetched fractions).filesIndex = m.filesIndex := by
      rw [availabilityFetched]
      split_ifs <;> rfl
    refine ⟨hfiles, (getFilePriorities_congr hfiles ?_).trans hm⟩
    rw [availabilityFetched]
    split_ifs
    · exact LeafTree.Alike.refl SamePriority.refl _
    · exact (samePriority_eachFile samePriority_setAvailability fractions).trans SamePriority.trans
        (alike_recalculateRootProgress SamePriority.refl samePriority_takeProgress _)

/-- **The tree is a list of priorities.**  In every run the files have the priorities that the events
give to a plain list with one entry for each file. -/
theorem getFilePriorities_run {content : Content} (h : ∀ file ∈ content.files, pathParts file ≠ [])
    (hlength : content.filePriorities.length = content.files.length) {events : List Event}
    (hrun : machine.run (populate content) events = some m) :
    m.getFilePriorities = (events.foldl (afterEvent m.filesIndex) content.filePriorities).map some := by
  have hrun_of {m₀ : TorrentContentModel} {priorities : List DownloadPriority}
      (hkept : Kept m₀.rootItem m₀.filesIndex) (hnodup : m₀.filesIndex.Nodup)
      (hm₀ : m₀.getFilePriorities = priorities.map some) {events : List Event}
      (hrun : machine.run m₀ events = some m) : m.filesIndex = m₀.filesIndex ∧
        m.getFilePriorities = (events.foldl (afterEvent m₀.filesIndex) priorities).map some := by
    induction events generalizing m₀ priorities with
    | nil =>
      cases hrun
      exact ⟨rfl, hm₀⟩
    | cons event events ih =>
      obtain ⟨m₁, hstep, hrun⟩ := run_cons_eq_some.1 hrun
      obtain ⟨hpossible, rfl⟩ := guarded_step_eq_some.1 hstep
      obtain ⟨hfiles, hnext⟩ := getFilePriorities_next hkept hnodup hpossible hm₀
      have hrest := ih (kept_next hkept hpossible) (hfiles ▸ hnodup) hnext hrun
      rwa [hfiles] at hrest
  -- the priorities of the content are set last, over those of new items
  let m₀ : TorrentContentModel := ⟨(build content.files).rootItem, (build content.files).filesIndex⟩
  have hkept : Kept m₀.rootItem m₀.filesIndex := kept_build h
  have hbuilt := (sound_build h).built
  have hm₀ : m₀.getFilePriorities = (replicate content.files.length .normal).map some := by
    rw [map_replicate, eq_replicate_iff, getFilePriorities, length_map]
    refine ⟨hbuilt.length_filesIndex, fun priority hpriority => ?_⟩
    obtain ⟨place, hplace, rfl⟩ := mem_map.1 hpriority
    obtain ⟨-, seen, hseen, -⟩ := hkept.files place hplace
    rw [TorrentContentModel.priorityAt, hseen, map_some, (sound_build h).unset place seen hseen]
  obtain ⟨hfiles, hpriorities⟩ := hrun_of hkept hbuilt.nodup hm₀
    (show machine.run m₀ (.updateFilesProgress content.filesProgress ::
      .updateFilesPriorities content.filePriorities :: events) = some m from hrun)
  rw [hpriorities, hfiles, foldl_cons, foldl_cons, afterEvent, afterEvent,
    if_neg (not_not.2 (hbuilt.length_filesIndex.trans hlength.symm))]

/-- A choice for the inner folder, and then new priorities of all files. -/
theorem getFilePriorities_nestedFolders : ∃ m, machine.run (populate nestedFolders)
    [.setItemPriority [0, 0] .maximum, .updateFilesPriorities [.ignored, .high]] = some m ∧
      m.getFilePriorities = ([.setItemPriority [0, 0] .maximum,
        .updateFilesPriorities [.ignored, .high]].foldl (afterEvent m.filesIndex)
          nestedFolders.filePriorities).map some :=
  exists_run (by decide) fun _ hrun => getFilePriorities_run (by decide) rfl hrun

end QBittorrent.TorrentContent
