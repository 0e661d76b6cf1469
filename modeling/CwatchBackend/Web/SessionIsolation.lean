import CwatchBackend.Web.ViewsMaps

/-!
# Sessions cannot steer each other's views

The ids of the views are small numbers that any client can guess, and a message carries whatever id
its client wants.  What keeps the sessions apart is which map a websocket holds.  `Owned` says that
every reference of a session, of one of its websockets or of one of its `start` requests leads to a
map created for this session, and that a map holds only views that have been started for it.
Handshakes and `start` requests may overwrite each other's maps, but only within a session, so every
run keeps the sessions apart (`sessions_isolated`).
-/

namespace CwatchBackend

open Foundation

namespace Web

variable {S W V : Type} [DecidableEq S] [DecidableEq W] {services : ℕ → Services V}
  {web web' : Web S W V}

/-- The map has been created for the session. -/
def OwnedBy (web : Web S W V) (session : S) (viewsMap : ℕ) : Prop :=
  ∃ object, web.viewsMaps[viewsMap]? = some object ∧ object.owner = session

/-- The view has been started for the session, under the id `viewId`. -/
def Started (web : Web S W V) (session : S) (viewId : Int32) (view : ℕ) : Prop :=
  ∃ started, web.views[view]? = some started ∧ started.session = session ∧
    started.viewId = viewId

/-- Every reference leads to a map of its own session, and every map to views of its own session. -/
structure Owned (web : Web S W V) : Prop where
  sessionAttribute : ∀ session viewsMap, web.sessionAttribute session = some viewsMap →
    web.OwnedBy session viewsMap
  websocket : ∀ w session viewsMap,
    web.websocket w = some (.connected session (some viewsMap)) → web.OwnedBy session viewsMap
  holding : ∀ session viewsMap, web.starting = some (.holding session viewsMap) →
    web.OwnedBy session viewsMap
  registered : ∀ session viewsMap viewId view,
    web.starting = some (.registered session viewsMap viewId view) →
    web.OwnedBy session viewsMap ∧ web.Started session viewId view
  entry : ∀ (viewsMap : ℕ) (object : ViewsMap S), web.viewsMaps[viewsMap]? = some object →
    ∀ viewId view, object.get viewId = some view → web.Started object.owner viewId view

omit [DecidableEq S] [DecidableEq W] in
/-- Without maps nothing is shared. -/
theorem owned_new : Owned (new : Web S W V) where
  sessionAttribute session viewsMap h := by cases h
  websocket w session viewsMap h := by cases h
  holding session viewsMap h := by cases h
  registered session viewsMap viewId view h := by cases h
  entry viewsMap object h := by cases h

/-- What an updated function returns is the new value or an old one. -/
theorem eq_or_of_update {α β : Type} [DecidableEq α] {f : α → β} {a a' : α} {b c : β}
    (h : Function.update f a b a' = c) : b = c ∨ f a' = c := by
  exact (Function.forall_update_iff f fun a' x => x = c → b = c ∨ f a' = c).mpr
    ⟨Or.inl, fun _ _ => Or.inr⟩ a' h

/-- What is on the heap stays there when something is added. -/
theorem getElem?_append_of_eq_some {α : Type} {l l' : List α} {i : ℕ} {a : α}
    (h : l[i]? = some a) : (l ++ l')[i]? = some a := by
  obtain ⟨hi, -⟩ := List.getElem?_eq_some_iff.mp h
  rw [List.getElem?_append_left hi, h]

omit [DecidableEq W] in
/-- Maps keep their owners when one is created. -/
theorem OwnedBy.createMap {session session' : S} {viewsMap : ℕ}
    (h : web.OwnedBy session viewsMap) : (web.createMap session').OwnedBy session viewsMap := by
  obtain ⟨object, hobject, howner⟩ := h
  exact ⟨object, getElem?_append_of_eq_some hobject, howner⟩

omit [DecidableEq W] in
/-- A new map belongs to the session for which it is created. -/
theorem ownedBy_createMap (web : Web S W V) (session : S) :
    (web.createMap session).OwnedBy session web.viewsMaps.length :=
  ⟨ViewsMap.new session, List.getElem?_concat_length, rfl⟩

omit [DecidableEq W] in
/-- A map is created for a session. -/
theorem Owned.createMap (h : Owned web) (session : S) : Owned (web.createMap session) where
  sessionAttribute session' viewsMap hread := by
    by_cases hs : session' = session
    · subst hs
      rw [sessionAttribute_createMap_self] at hread
      exact Option.some.inj hread ▸ ownedBy_createMap web session'
    · rw [sessionAttribute_createMap_of_ne web hs] at hread
      exact (h.sessionAttribute session' viewsMap hread).createMap
  websocket w session' viewsMap hw := (h.websocket w session' viewsMap hw).createMap
  holding session' viewsMap hstarting := (h.holding session' viewsMap hstarting).createMap
  registered session' viewsMap viewId view hstarting :=
    ⟨(h.registered session' viewsMap viewId view hstarting).1.createMap,
      (h.registered session' viewsMap viewId view hstarting).2⟩
  entry viewsMap object hobject viewId view hget := by
    have hmem : (web.viewsMaps ++ [ViewsMap.new session])[viewsMap]? = some object := hobject
    rw [List.getElem?_append] at hmem
    split at hmem
    · exact h.entry viewsMap object hmem viewId view hget
    · -- A new map is empty.
      have hnew : object = ViewsMap.new session := by
        have := List.mem_of_getElem? hmem
        simpa using this
      subst hnew
      cases hget

omit [DecidableEq S] in
/-- A websocket gets on. -/
theorem Owned.setWebsocket (h : Owned web) (w : W) {websocket : Websocket S}
    (hw : ∀ session viewsMap, websocket = .connected session (some viewsMap) →
      web.OwnedBy session viewsMap) :
    Owned { web with websocket := Function.update web.websocket w (some websocket) } :=
  { h with
    websocket := fun w' session viewsMap hw' => (eq_or_of_update hw').elim
      (fun heq => hw session viewsMap (Option.some.inj heq)) (h.websocket w' session viewsMap) }

omit [DecidableEq S] [DecidableEq W] in
/-- A view that has been started. -/
theorem Started.register {session session' : S} {viewId viewId' : Int32} {view : ℕ}
    (h : web.Started session viewId view) (starting : Option (StartRequest S)) :
    Started { web with
      viewIdSequence := web.viewIdSequence + 1
      views := web.views ++ [⟨session', viewId', .new⟩]
      starting } session viewId view := by
  obtain ⟨started, hstarted, hboth⟩ := h
  exact ⟨started, getElem?_append_of_eq_some hstarted, hboth⟩

omit [DecidableEq S] [DecidableEq W] in
/-- A view stays with its session when it gets a new viewport. -/
theorem Started.positionsView {session : S} {viewId : Int32} {view : ℕ}
    (h : web.Started session viewId view) (viewsMap : Option ℕ) (viewId' : Int32)
    (viewport : Viewport) :
    (web.positionsView services viewsMap viewId' viewport).1.Started session viewId view := by
  rcases positionsView_cases services web viewsMap viewId' viewport with
    hsame | ⟨m, v, started', -, -, hstarted', hset⟩
  · rw [hsame]
    exact h
  · obtain ⟨started, hstarted, hsession, hviewId⟩ := h
    rw [hset]
    by_cases hv : v = view
    · subst hv
      obtain rfl := Option.some.inj (hstarted.symm.trans hstarted')
      obtain ⟨hlt, -⟩ := List.getElem?_eq_some_iff.mp hstarted
      exact ⟨_, List.getElem?_set_self hlt, hsession, hviewId⟩
    · exact ⟨started, (List.getElem?_set_ne hv).trans hstarted, hsession, hviewId⟩

omit [DecidableEq S] [DecidableEq W] in
/-- Maps keep their owners when a view is put into one of them. -/
theorem OwnedBy.putView {session : S} {viewsMap m : ℕ} {viewId : Int32} {view : ℕ}
    (h : web.OwnedBy session m) (starting : Option (StartRequest S))
    (returned : List (S × Int32)) :
    OwnedBy { web with
      viewsMaps := web.viewsMaps.modify viewsMap fun viewsMap => viewsMap.put viewId view
      starting, returned } session m := by
  obtain ⟨object, hobject, howner⟩ := h
  by_cases hm : viewsMap = m
  · refine ⟨object.put viewId view, ?_, howner⟩
    rw [List.getElem?_modify, hobject, hm]
    simp
  · refine ⟨object, ?_, howner⟩
    rw [List.getElem?_modify, hobject]
    simp [hm]

omit [DecidableEq S] [DecidableEq W] in
/-- A `start` request registers its view. -/
theorem Owned.register (h : Owned web) {session : S} {viewsMap : ℕ}
    (hstarting : web.starting = some (.holding session viewsMap)) :
    Owned { web with
      viewIdSequence := web.viewIdSequence + 1
      views := web.views ++ [⟨session, web.viewIdSequence, .new⟩]
      starting := some (.registered session viewsMap web.viewIdSequence web.views.length) } := by
  refine { h with
    holding := nofun
    registered := fun session' viewsMap' viewId view heq => ?_
    entry := fun m object hobject viewId view hget =>
      (h.entry m object hobject viewId view hget).register _ }
  obtain ⟨rfl, rfl, rfl, rfl⟩ := StartRequest.registered.inj (Option.some.inj heq)
  exact ⟨h.holding session viewsMap hstarting, ⟨_, List.getElem?_concat_length, rfl, rfl⟩⟩

omit [DecidableEq S] [DecidableEq W] in
/-- A `start` request puts its view into its map. -/
theorem Owned.putView (h : Owned web) {session : S} {viewsMap : ℕ} {viewId : Int32} {view : ℕ}
    (hstarting : web.starting = some (.registered session viewsMap viewId view)) :
    Owned { web with
      viewsMaps := web.viewsMaps.modify viewsMap fun viewsMap => viewsMap.put viewId view
      starting := none
      returned := web.returned ++ [(session, viewId)] } := by
  obtain ⟨howned, hstarted⟩ := h.registered session viewsMap viewId view hstarting
  refine {
    sessionAttribute := fun session' m hm => (h.sessionAttribute session' m hm).putView _ _
    websocket := fun w session' m hw => (h.websocket w session' m hw).putView _ _
    holding := nofun
    registered := nofun
    entry := fun m object hobject viewId' view' hget => ?_ }
  rw [List.getElem?_modify] at hobject
  obtain ⟨old, hold, rfl⟩ := Option.map_eq_some_iff.mp hobject
  split at hget
  · next hm =>
    -- The map that has got the new view.
    obtain ⟨object, hobject', rfl⟩ := howned
    obtain rfl := Option.some.inj (hobject'.symm.trans (hm ▸ hold))
    rw [if_pos hm]
    by_cases hid : viewId' = viewId
    · subst hid
      rw [ViewsMap.get_put_self] at hget
      exact Option.some.inj hget ▸ hstarted
    · rw [ViewsMap.get_put_of_ne object hid] at hget
      exact h.entry m object hold viewId' view' hget
  · next hm =>
    rw [if_neg hm]
    exact h.entry m old hold viewId' view' hget

omit [DecidableEq S] [DecidableEq W] in
/-- A message arrives. -/
theorem Owned.positionsView (h : Owned web) (viewsMap : Option ℕ) (viewId : Int32)
    (viewport : Viewport) : Owned (web.positionsView services viewsMap viewId viewport).1 := by
  have hstarted : ∀ {session' viewId' view}, web.Started session' viewId' view →
      (web.positionsView services viewsMap viewId viewport).1.Started session' viewId' view :=
    fun h' => h'.positionsView viewsMap viewId viewport
  rcases positionsView_cases services web viewsMap viewId viewport with
    hsame | ⟨m, v, started, -, -, -, hset⟩
  · rw [hsame]
    exact h
  · rw [hset] at hstarted ⊢
    refine { h with
      registered := fun session' m' viewId' view' hstarting => ?_
      entry := fun m' object hobject viewId' view' hget =>
        hstarted (h.entry m' object hobject viewId' view' hget) }
    obtain ⟨hmap, hview⟩ := h.registered session' m' viewId' view' hstarting
    exact ⟨hmap, hstarted hview⟩

/-- Every step keeps the owners. -/
theorem owned_of_step {action : WebAction S W} (h : Owned web)
    (hstep : web.step services action = some web') : Owned web' := by
  cases stepped_of_step hstep with
  | handshakeAbsent w session _ _ => exact h.setWebsocket w nofun
  | handshakePresent w session _ _ _ => exact h.setWebsocket w nofun
  | createForHandshake w session _ => exact (h.createMap session).setWebsocket w nofun
  | copyAttributes w session _ =>
    refine h.setWebsocket w fun session' viewsMap heq => ?_
    obtain ⟨rfl, hread⟩ := Websocket.connected.inj heq
    exact h.sessionAttribute session viewsMap hread
  | startAbsent session _ _ => exact { h with holding := nofun, registered := nofun }
  | startHolding session viewsMap _ hread =>
    refine { h with holding := fun session' viewsMap' heq => ?_, registered := nofun }
    obtain ⟨rfl, rfl⟩ := StartRequest.holding.inj (Option.some.inj heq)
    exact h.sessionAttribute session viewsMap hread
  | createForStart session _ =>
    refine { h.createMap session with
      holding := fun session' viewsMap heq => ?_, registered := nofun }
    obtain ⟨rfl, rfl⟩ := StartRequest.holding.inj (Option.some.inj heq)
    exact ownedBy_createMap web session
  | register session viewsMap hstarting => exact h.register hstarting
  | registerThrows session viewsMap _ => exact { h with holding := nofun, registered := nofun }
  | putView session viewsMap viewId view hstarting => exact h.putView hstarting
  | positionsView w session viewsMap viewId viewport _ =>
    exact h.positionsView viewsMap viewId viewport

/-! ### The ids -/

/-- The ids that have been returned, and the one of the `start` request that has registered its
view. -/
def viewIds (web : Web S W V) : List Int32 :=
  web.returned.map Prod.snd ++ (web.starting.bind StartRequest.viewId?).toList

/-- `drawn` ids have been drawn one after the other, and `numbers` counts those that views have
got. -/
structure Numbered (web : Web S W V) (drawn : ℕ) (numbers : List ℕ) : Prop where
  sequence : web.viewIdSequence = Int32.ofNat drawn
  viewIds : web.viewIds = numbers.map Int32.ofNat
  ascending : numbers.Pairwise (· < ·)
  drawn : ∀ n ∈ numbers, n < drawn

omit [DecidableEq S] [DecidableEq W] in
/-- No id has been drawn. -/
theorem numbered_new : Numbered (new : Web S W V) 0 [] where
  sequence := rfl
  viewIds := rfl
  ascending := List.Pairwise.nil
  drawn _ h := absurd h List.not_mem_nil

omit [DecidableEq S] [DecidableEq W] in
/-- A step in which no id is drawn. -/
theorem Numbered.congr {drawn : ℕ} {numbers : List ℕ} (h : Numbered web drawn numbers)
    (hsequence : web'.viewIdSequence = web.viewIdSequence) (hids : web'.viewIds = web.viewIds) :
    Numbered web' drawn numbers :=
  { h with sequence := hsequence.trans h.sequence, viewIds := hids.trans h.viewIds }

omit [DecidableEq S] [DecidableEq W] in
/-- A step in which an id is drawn that no view gets. -/
theorem Numbered.burn {drawn : ℕ} {numbers : List ℕ} (h : Numbered web drawn numbers)
    (hsequence : web'.viewIdSequence = web.viewIdSequence + 1)
    (hids : web'.viewIds = web.viewIds) : Numbered web' (drawn + 1) numbers where
  sequence := by
    rw [hsequence, h.sequence, Int32.ofNat_add]
    rfl
  viewIds := hids.trans h.viewIds
  ascending := h.ascending
  drawn n hn := (h.drawn n hn).trans (Nat.lt_succ_self drawn)

omit [DecidableEq S] [DecidableEq W] in
/-- A step in which a view gets the id that is drawn. -/
theorem Numbered.register {drawn : ℕ} {numbers : List ℕ} (h : Numbered web drawn numbers)
    (hsequence : web'.viewIdSequence = web.viewIdSequence + 1)
    (hids : web'.viewIds = web.viewIds ++ [web.viewIdSequence]) :
    Numbered web' (drawn + 1) (numbers ++ [drawn]) where
  sequence := by
    rw [hsequence, h.sequence, Int32.ofNat_add]
    rfl
  viewIds := by rw [hids, h.viewIds, h.sequence, List.map_append, List.map_singleton]
  ascending := by
    refine List.pairwise_append.mpr ⟨h.ascending, List.pairwise_singleton _ _, ?_⟩
    intro n hn m hm
    exact List.mem_singleton.mp hm ▸ h.drawn n hn
  drawn n hn := by
    rcases List.mem_append.mp hn with hn | hn
    · exact (h.drawn n hn).trans (Nat.lt_succ_self drawn)
    · exact List.mem_singleton.mp hn ▸ Nat.lt_succ_self drawn

/-- Every step draws at most the next id. -/
theorem numbered_of_step {action : WebAction S W} {drawn : ℕ} {numbers : List ℕ}
    (h : Numbered web drawn numbers) (hstep : web.step services action = some web') :
    ∃ numbers', Numbered web' (drawn + if action.drawsId then 1 else 0) numbers' := by
  cases stepped_of_step hstep with
  | handshakeAbsent w session _ _ => exact ⟨numbers, h.congr rfl rfl⟩
  | handshakePresent w session _ _ _ => exact ⟨numbers, h.congr rfl rfl⟩
  | createForHandshake w session _ => exact ⟨numbers, h.congr rfl rfl⟩
  | copyAttributes w session _ => exact ⟨numbers, h.congr rfl rfl⟩
  | startAbsent session free _ =>
    refine ⟨numbers, h.congr rfl ?_⟩
    rw [viewIds, viewIds, free]
    rfl
  | startHolding session viewsMap free _ =>
    refine ⟨numbers, h.congr rfl ?_⟩
    rw [viewIds, viewIds, free]
    rfl
  | createForStart session hstarting =>
    refine ⟨numbers, h.congr rfl ?_⟩
    rw [viewIds, viewIds, hstarting]
    rfl
  | register session viewsMap hstarting =>
    refine ⟨numbers ++ [drawn], h.register rfl ?_⟩
    rw [viewIds, viewIds, hstarting]
    exact congrArg (· ++ [web.viewIdSequence]) (List.append_nil _).symm
  | registerThrows session viewsMap hstarting =>
    refine ⟨numbers, h.burn rfl ?_⟩
    rw [viewIds, viewIds, hstarting]
    rfl
  | putView session viewsMap viewId view hstarting =>
    refine ⟨numbers, h.congr rfl ?_⟩
    rw [viewIds, viewIds, hstarting, List.map_append]
    exact List.append_nil _
  | positionsView w session viewsMap viewId viewport hw =>
    rcases positionsView_cases services web viewsMap viewId viewport with
      hsame | ⟨m, v, started, -, -, -, hset⟩
    · rw [hsame]
      exact ⟨numbers, h⟩
    · rw [hset]
      exact ⟨numbers, h.congr rfl rfl⟩

/-- The ids of a run are numbered as they have been drawn in it. -/
theorem numbered_of_run {actions : List (WebAction S W)}
    (hrun : run (step services) new actions = some web) :
    ∃ numbers, Numbered web (actions.countP WebAction.drawsId) numbers := by
  refine run_history_of_step (I := fun actions web =>
    ∃ numbers, Numbered web (actions.countP WebAction.drawsId) numbers) ⟨[], numbered_new⟩ ?_ hrun
  rintro actions web action web' ⟨numbers, h⟩ hstep
  rw [List.countP_append, List.countP_singleton]
  exact numbered_of_step h hstep

/-- Different numbers make different ids, as long as they do not wrap around. -/
theorem ofNat_injOn {a b : ℕ} (ha : a < 2 ^ 32) (hb : b < 2 ^ 32)
    (h : Int32.ofNat a = Int32.ofNat b) : a = b := by
  have hbits : a % 2 ^ 32 = b % 2 ^ 32 := congrArg (fun n => n.toBitVec.toNat) h
  rwa [Nat.mod_eq_of_lt ha, Nat.mod_eq_of_lt hb] at hbits

omit [DecidableEq S] [DecidableEq W] in
/-- The ids that have been returned differ. -/
theorem Numbered.nodup {drawn : ℕ} {numbers : List ℕ} (h : Numbered web drawn numbers)
    (hfew : drawn ≤ 2 ^ 32) : (web.returned.map Prod.snd).Nodup := by
  have hids : web.viewIds.Nodup := by
    rw [h.viewIds]
    refine List.Nodup.map_on (fun a ha b hb hab => ?_) (h.ascending.imp fun hlt => hlt.ne)
    exact ofNat_injOn ((h.drawn a ha).trans_le hfew) ((h.drawn b hb).trans_le hfew) hab
  exact (List.nodup_append.mp hids).1

/-! ### Messages -/

omit [DecidableEq S] [DecidableEq W] in
/-- A message on a websocket changes at most the viewport of one view, which has been started for
the session of the websocket under the id of the message. -/
theorem Owned.positionsView_frame (h : Owned web) {w : W} {session : S} {viewsMap : Option ℕ}
    (hw : web.websocket w = some (.connected session viewsMap)) (viewId : Int32)
    (viewport : Viewport) :
    ∃ v : ℕ, (∀ v' : ℕ, v' ≠ v →
        (web.positionsView services viewsMap viewId viewport).1.views[v']? = web.views[v']?) ∧
      ((web.positionsView services viewsMap viewId viewport).1.views[v]? = web.views[v]? ∨
        ∃ started : StartedView S V, web.views[v]? = some started ∧ started.session = session ∧
          started.viewId = viewId ∧
          ∃ clientViewport viewports,
            (web.positionsView services viewsMap viewId viewport).1.views[v]? =
              some { started with view := { started.view with clientViewport, viewports } }) := by
  rcases positionsView_cases services web viewsMap viewId viewport with
    hsame | ⟨m, v, started, rfl, hfind, hstarted, hset⟩
  · rw [hsame]
    exact ⟨0, fun _ _ => rfl, Or.inl rfl⟩
  · rw [hset]
    refine ⟨v, fun v' hv' => List.getElem?_set_ne hv'.symm, Or.inr ⟨started, hstarted, ?_⟩⟩
    obtain ⟨object, hobject, howner⟩ := h.websocket w session m hw
    have hget : object.get viewId = some v := by
      rw [find, hobject] at hfind
      exact hfind
    obtain ⟨started', hstarted', hsession, hviewId⟩ := h.entry m object hobject viewId v hget
    obtain rfl := Option.some.inj (hstarted.symm.trans hstarted')
    refine ⟨hsession.trans howner, hviewId, ?_⟩
    obtain ⟨hlt, -⟩ := List.getElem?_eq_some_iff.mp hstarted
    rcases DefaultLatestPositionView.setVieport_cases (services v) started.view viewport with
      hfails | ⟨vp, -, hviewport⟩
    · refine ⟨started.view.clientViewport, started.view.viewports, ?_⟩
      rw [List.getElem?_set_self hlt, hfails]
    · refine ⟨some vp, started.view.viewports + 1, ?_⟩
      rw [List.getElem?_set_self hlt, hviewport]

/-- In every run, as long as no more than `2 ^ 32` ids have been drawn, the ids returned by `start`
differ, and a message on a websocket changes at most the viewport of one view, which a `start`
request of the session of the websocket has created. -/
theorem sessions_isolated (services : ℕ → Services V) (actions : List (WebAction S W))
    (web : Web S W V) (hrun : run (step services) new actions = some web) :
    (actions.countP WebAction.drawsId ≤ 2 ^ 32 → (web.returned.map Prod.snd).Nodup) ∧
      ∀ w session viewsMap viewId viewport web',
        web.websocket w = some (.connected session viewsMap) →
        web.step services (.positionsView w viewId viewport) = some web' →
        ∃ v : ℕ, (∀ v' : ℕ, v' ≠ v → web'.views[v']? = web.views[v']?) ∧
          (web'.views[v]? = web.views[v]? ∨
            ∃ started : StartedView S V, web.views[v]? = some started ∧
              started.session = session ∧ started.viewId = viewId ∧
              ∃ clientViewport viewports, web'.views[v]? =
                some { started with
                  view := { started.view with clientViewport, viewports } }) := by
  obtain ⟨numbers, hnumbered⟩ := numbered_of_run hrun
  have howned : Owned web :=
    run_invariant_of_step (fun _ _ _ h hstep => owned_of_step h hstep) owned_new hrun
  refine ⟨hnumbered.nodup, ?_⟩
  intro w session viewsMap viewId viewport web' hw hstep
  cases stepped_of_step hstep with
  | positionsView _ session' viewsMap' _ _ hw' =>
    obtain ⟨rfl, rfl⟩ := Websocket.connected.inj (Option.some.inj (hw.symm.trans hw'))
    exact howned.positionsView_frame hw viewId viewport

/-! ### Two sessions -/

/-- Views with the identity as the only projection; every message goes out. -/
def planeViews : ℕ → Services VesselId := fun _ =>
  { findMathTransform := fun _ => .ok .ok
    createAffineTransform := fun matrix => .ok (affine matrix)
    convertAndSend := fun _ _ => none }

/-- The session `true` opens a websocket and starts a view, and then the session `false` starts
one, after a request for a profile that does not exist. -/
def twoSessions : List (WebAction Bool Unit) :=
  [.readForHandshake () true, .createForHandshake (), .copyAttributes (), .readForStart true,
    .register, .putView, .readForStart false, .createForStart, .registerThrows,
    .readForStart false, .register, .putView]

/-- Whatever message comes on the websocket, the view of the other session keeps its state. -/
theorem sessions_isolated_twoSessions :
    ∃ web, run (step planeViews) new twoSessions = some web ∧
      (web.returned.map Prod.snd).Nodup ∧
      ∀ viewId viewport web', web.step planeViews (.positionsView () viewId viewport) = some web' →
        web'.views[1]? = web.views[1]? := by
  obtain ⟨web, hrun⟩ : ∃ web, run (step planeViews) new twoSessions = some web := ⟨_, rfl⟩
  obtain ⟨hids, hframe⟩ := sessions_isolated planeViews twoSessions web hrun
  have hother : ∀ started, web.views[1]? = some started → started.session = false := by
    obtain rfl := Option.some.inj hrun
    rintro started hstarted
    exact Option.some.inj hstarted ▸ rfl
  have hw : web.websocket () = some (.connected true (some 0)) := by
    obtain rfl := Option.some.inj hrun
    rfl
  have hfew : twoSessions.countP WebAction.drawsId ≤ 2 ^ 32 := by decide
  refine ⟨web, hrun, hids hfew, fun viewId viewport web' hstep => ?_⟩
  obtain ⟨v, hothers, hsame⟩ := hframe () true (some 0) viewId viewport web' hw hstep
  by_cases hv : 1 = v
  · subst hv
    rcases hsame with hsame | ⟨started, hstarted, hsession, -⟩
    · exact hsame
    · rw [hother started hstarted] at hsession
      cases hsession
  · exact hothers 1 hv

end Web

end CwatchBackend
