import PointTiles.Proofs.Load.Ending

/-! # The messages of a load

* `PageFails`: the ways in which the page at an address fails, each with its message.
* `pageMessage?_eq_some_iff`: the task of a page leaves a message exactly where the page fails.
* `Docket.Told`, `Docket.Told.step`: the messages so far are those of the pages ended so far, after
  the earlier ones.
* `Docket.Told.exists_failed`: when the load has returned, one message for each page that failed.
-/

namespace PointTiles
set_option autoImplicit false

variable {α : Type}

/-! ## Pages that fail -/

/-- The page at an address fails with a message: it cannot be had, getting it breaks off, its text
cannot be read, or it has an entry whose address is not that of a cell. The first such entry is
named. -/
inductive PageFails (source : Source) (a : Address) : String → Prop where
  | unfetched {error : String} {origins : List String}
      (hsource : source a = .error (.failed error origins)) :
      PageFails source a
        (": ".intercalate (("fetching hierarchy page " ++ a.text) :: error :: origins))
  | brokeOff {text : Option String} (hsource : source a = .error (.brokeOff text)) :
      PageFails source a (text.getD "Unknown error")
  | unread {text : String} {fault : Fault} (hsource : source a = .ok text)
      (hparse : Page.parse text = .error fault) :
      PageFails source a
        (": ".intercalate (("parsing hierarchy page " ++ a.text) :: fault.message :: fault.origins))
  | unmerged {text : String} {page : Page} {b : Address} {entry : PageEntry}
      {before after : List (Address × PageEntry)} (hsource : source a = .ok text)
      (hparse : Page.parse text = .ok page) (hentries : page.toList = before ++ (b, entry) :: after)
      (hbefore : ∀ e ∈ before, e.1.OfCell) (hb : ¬ b.OfCell) :
      PageFails source a
        (if Address.maxDepth < b.depth.toNat then Fault.keyTooDeep b else .keyOutsideGrid b).message

variable [Coordinate α]

theorem subtrees_eq_error_iff {root : Box α} {page : Page} {fault : Fault} :
    page.subtrees root = .error fault ↔ ∃ before b entry after,
      page.toList = before ++ (b, entry) :: after ∧ (∀ e ∈ before, e.1.OfCell) ∧
        Key.descend root b = .error fault :=
  Hierarchy.mergeEntries_eq_error_iff

/-- A fault of a key has no cause but itself. -/
theorem message_ofFault_descend {root : Box α} {b : Address} {fault : Fault}
    (h : Key.descend root b = .error fault) : (Trouble.ofFault fault).message = fault.message := by
  obtain ⟨-, rfl⟩ := Key.descend_eq_error_iff.1 h
  split <;> rfl

/-- The task of a page leaves a message exactly where the page fails, and that one. -/
theorem pageMessage?_eq_some_iff {source : Source} {root : Box α} {a : Address} {message : String} :
    pageMessage? source root a = some message ↔ PageFails source a message := by
  constructor
  · intro h
    unfold pageMessage? pageTask at h
    cases hsource : source a with
    | error trouble =>
      cases trouble with
      | failed error origins =>
        simp only [hsource, Option.map_some, Option.some.injEq] at h
        exact h ▸ .unfetched hsource
      | brokeOff text =>
        simp only [hsource, Option.map_some, Option.some.injEq] at h
        cases text <;> exact h ▸ .brokeOff hsource
    | ok text =>
      cases hparse : Page.parse text with
      | error fault =>
        simp only [hsource, hparse, Option.map_some, Option.some.injEq] at h
        exact h ▸ .unread hsource hparse
      | ok page =>
        cases hkeys : page.subtrees root with
        | ok keys => simp [hsource, hparse, hkeys] at h
        | error fault =>
          simp only [hsource, hparse, hkeys, Option.map_some, Option.some.injEq] at h
          obtain ⟨before, b, entry, after, hentries, hbefore, hfault⟩ := subtrees_eq_error_iff.1 hkeys
          obtain ⟨hb, rfl⟩ := Key.descend_eq_error_iff.1 hfault
          rw [← h, message_ofFault_descend hfault]
          exact .unmerged hsource hparse hentries hbefore hb
  · intro h
    unfold pageMessage? pageTask
    cases h with
    | unfetched hsource =>
      simp only [hsource]
      rfl
    | @brokeOff text hsource =>
      simp only [hsource]
      cases text <;> rfl
    | unread hsource hparse =>
      simp only [hsource, hparse]
      rfl
    | @unmerged _ _ b _ _ _ hsource hparse hentries hbefore hb =>
      have hfault : Key.descend root b = .error _ := Key.descend_eq_error_iff.2 ⟨hb, rfl⟩
      have hkeys := subtrees_eq_error_iff.2 ⟨_, _, _, _, hentries, hbefore, hfault⟩
      simp only [hsource, hparse, hkeys, Option.map_some, message_ofFault_descend hfault]

/-! ## Messages so far -/

namespace Docket

/-- The messages are the earlier ones and those of the pages that have ended. -/
structure Told (source : Source) (root : Box α) (before : List String) (d : Docket α) : Prop where
  messages : ∃ own, d.errors = before ++ own ∧
    (own : Multiset String) = d.done.filterMap (pageMessage? source root)
  offset : d.phase ≠ .beginning → d.errorsBefore = before.length
  result : ∀ result, d.phase = .finished result →
    result = Load.report (d.errors.drop before.length)

variable {source : Source} {root : Box α} {before : List String} {d d' : Docket α}

theorem told_initial (source : Source) (root : Box α) (pool : Pool (Workspace α)) :
    Told source root pool.errors ((Load.initial pool).docket 0 0) where
  messages := ⟨[], (List.append_nil _).symm, rfl⟩
  offset h := absurd rfl h
  result := nofun

namespace Told

theorem finish (hsound : Sound source root d) {a : Address} {underway : Multiset (Address × Nat)}
    (h : Told source root before d)
    (hunderway : d.underway = (a, (pageTask source root a).actions.length) ::ₘ underway) :
    Told source root before
      { d with
        underway
        done := a ::ₘ d.done
        errors := d.errors ++ (pageMessage? source root a).toList } := by
  have hround := hsound.isRound_of_mem (hunderway ▸ Multiset.mem_cons_self _ _)
  refine ⟨?_, h.offset, fun result hphase => ?_⟩
  · obtain ⟨own, herrors, hown⟩ := h.messages
    refine ⟨own ++ (pageMessage? source root a).toList, ?_, ?_⟩
    · simp only [herrors, List.append_assoc]
    · rw [← Multiset.coe_add, hown]
      cases hmessage : pageMessage? source root a with
      | none =>
        rw [Multiset.filterMap_cons_none _ _ hmessage]
        exact Multiset.add_zero _
      | some message =>
        rw [Multiset.filterMap_cons_some _ _ _ hmessage, Multiset.add_comm]
        rfl
  · rw [show d.phase = .finished result from hphase] at hround
    cases hround

theorem step (hsound : Sound source root d) (h : Told source root before d)
    (hstep : Docket.Step source root False d d') : Told source root before d' := by
  cases hstep with
  | rest => exact h
  | elsewhere hothers => exact hothers.elim
  | act hunderway heffect hlength => exact ⟨h.messages, h.offset, h.result⟩
  | finish hunderway => exact h.finish hsound hunderway
  | begin hphase =>
    obtain ⟨own, herrors, hown⟩ := h.messages
    obtain ⟨-, -, hdone⟩ := hsound.at_beginning hphase
    refine ⟨h.messages, fun _ => ?_, fun _ hnot => by cases hnot⟩
    rw [hdone, Multiset.filterMap_zero, Multiset.coe_eq_zero] at hown
    simp [herrors, hown]
  | openRound hphase | openLast hphase | submit hphase | submitted hphase | await hphase
  | gather hphase =>
    exact ⟨h.messages, fun _ => h.offset (by simp [hphase]), fun _ hnot => by cases hnot⟩
  | report hphase =>
    have hoffset := h.offset (by simp [hphase])
    refine ⟨h.messages, fun _ => hoffset, fun result hresult => ?_⟩
    cases hresult
    rw [hoffset]

/-- When the load has returned, there is one message for each page that failed, and the result says
so. -/
theorem exists_failed (hsound : Sound source root d) (h : Told source root before d)
    {result : Except Fault Unit} (hphase : d.phase = .finished result) :
    ∃ failed messages, failed.Nodup ∧
      (∀ a, a ∈ failed ↔ a ∈ d.workspace.fetched ∧ ∃ message, PageFails source a message) ∧
      List.Forall₂ (PageFails source) failed messages ∧ d.errors = before ++ messages ∧
      result = Load.report messages := by
  have hbegun : d.phase ≠ .beginning := by simp [hphase]
  obtain ⟨own, herrors, hown⟩ := h.messages
  obtain ⟨hpast, hdone⟩ := hsound.past_eq hphase 0
  have hfetched : d.workspace.fetched.Perm d.requested :=
    Multiset.coe_eq_coe.1 ((hsound.fetched hbegun).trans hpast)
  have hmessages : (d.requested.filterMap (pageMessage? source root)).Perm own := by
    rw [hdone] at hown
    exact (Multiset.coe_eq_coe.1 hown).symm
  -- The pages that fail are first in the order of the requests, and then in that of the messages.
  have hfails := Places.forall₂_filterMap (pageMessage? source root) d.requested
  have hexchange := (List.forall₂_comp_perm_eq_perm_comp_forall₂ ▸ ⟨_, hfails, hmessages⟩ :
    Relation.Comp List.Perm (List.Forall₂ fun a message => pageMessage? source root a = some message)
      (d.requested.filter fun a => (pageMessage? source root a).isSome) own)
  obtain ⟨failed, hfailed, hall⟩ := hexchange
  refine ⟨failed, own, hfailed.nodup (hsound.nodup.filter _), fun a => ?_, ?_, herrors, ?_⟩
  · rw [← hfailed.mem_iff, List.mem_filter, hfetched.mem_iff, Option.isSome_iff_exists]
    exact and_congr_right fun _ => exists_congr fun _ => pageMessage?_eq_some_iff
  · exact hall.imp fun _ _ hmessage => pageMessage?_eq_some_iff.1 hmessage
  · rw [h.result result hphase, herrors, List.drop_left]

end Told

end Docket

end PointTiles
