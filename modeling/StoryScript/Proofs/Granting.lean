import StoryScript.Proofs.Upkeep
import StoryScript.Proofs.Workload

/-! What is done when requests are granted. They are granted in the order in which they were made: a
story gets the messages that are sent from its start until it is first stopped, and no others. -/
namespace StoryScript

/-! ### Requests -/

namespace Request

/-- The message that is to come to all stories, if a request is one to send a message. -/
def sent? : Request → Option Message
  | .send m args concurrent => some ⟨m, args, concurrent⟩
  | .start _ | .stop _ | .pause _ _ | .pauseHandlers _ _ => none

/-- Whether a story is to be paused, if a request is one to pause it or to let it go on. -/
def pauses? (storyId : String) : Request → Option Bool
  | .pause id paused => if storyId = id then some paused else none
  | .start _ | .stop _ | .send _ _ _ | .pauseHandlers _ _ => none

/-- Whether the handlers of a message are to be paused, if a request is one about them. -/
def holds? (message : String) : Request → Option Bool
  | .pauseHandlers m paused => if message = m then some paused else none
  | .start _ | .stop _ | .pause _ _ | .send _ _ _ => none

/-- The messages that are sent by some requests before the first of them that stops a story. -/
def sentTo (storyId : String) (rs : List Request) : List Message :=
  (rs.takeWhile fun r => !r.stops storyId).filterMap sent?

theorem sentTo_cons (storyId : String) (r : Request) (rs : List Request) :
    sentTo storyId (r :: rs) =
      if r.stops storyId then [] else r.sent?.toList ++ sentTo storyId rs := by
  cases hstops : r.stops storyId with
  | true => simp [sentTo, hstops]
  | false => cases hsent : r.sent? <;> simp [sentTo, hstops, hsent]

/-- What some answers to the same question lead to: the last of them counts. -/
def settled (before : Bool) (answers : List Bool) : Bool := answers.getLast?.getD before

/-- What the first of some requests answers holds until another one answers. -/
theorem settled_cons (answer? : Request → Option Bool) (before : Bool) (r : Request)
    (rs : List Request) : settled before ((r :: rs).filterMap answer?) =
      settled ((answer? r).getD before) (rs.filterMap answer?) := by
  cases hr : answer? r <;> simp [settled, hr, List.getLast?_cons]

end Request

/-- The stories of a library that some requests start, each with the requests that come after. -/
def Library.started (l : Library) (rs : List Request) : List (Template × List Request) :=
  rs.tails.filterMap fun
    | .start id :: later => (l.find? id).map (·, later)
    | _ => none

/-! ### One story -/

namespace Instance

/-- A story after messages came to it one after another, each at its own time. -/
def taking (i : Instance) (ms : List (Message × Int)) : Instance :=
  ms.foldl (fun i m => i.deliver m.1 m.2) i

theorem taking_map (now : Int) (i : Instance) (ms : List Message) :
    i.taking (ms.map (·, now)) = (deliverAll now i ms).1 := by
  induction ms generalizing i with
  | nil => rfl
  | cons m ms ih => exact ih (i.deliver m now)

/-- What is left alone when messages come. -/
theorem taking_frame (i : Instance) (ms : List (Message × Int)) :
    (i.taking ms).template = i.template ∧ (i.taking ms).terminated = i.terminated := by
  induction ms generalizing i with
  | nil => exact ⟨rfl, rfl⟩
  | cons m ms ih => simpa [taking] using ih (i.deliver m.1 m.2)

theorem handlerCount_taking {i : Instance} (hlive : i.terminated = false)
    (ms : List (Message × Int)) (id : String) : (i.taking ms).handlerCount id =
      i.handlerCount id + if i.template.hasHandler id then Message.countTo id (ms.map (·.1)) else 0 := by
  induction ms generalizing i with
  | nil => simp [taking, Message.countTo]
  | cons m ms ih =>
    have hfirst := handlerCount_deliver hlive m.1 m.2 id
    have hrest := ih (i := i.deliver m.1 m.2) (by simp [hlive])
    have htaking : i.taking (m :: ms) = (i.deliver m.1 m.2).taking ms := rfl
    rw [template_deliver, hfirst] at hrest
    rw [htaking, hrest, List.map_cons, Message.countTo_cons]
    by_cases hhas : i.template.hasHandler id = true <;> simp [hhas, Nat.add_assoc]

/-- The messages that requests are to bring to a story. -/
def due (i : Instance) (rs : List Request) : List Message :=
  if i.terminated then [] else Request.sentTo i.storyId rs

theorem due_cons (i : Instance) (r : Request) (rs : List Request) :
    i.due (r :: rs) =
      if i.terminated || r.stops i.storyId then [] else r.sent?.toList ++ i.due rs := by
  unfold due
  cases i.terminated with
  | true => rfl
  | false => simp [Request.sentTo_cons]

/-- Messages come to a story whether it is paused or not. -/
theorem deliverAll_paused (now : Int) (i : Instance) (paused : Bool) (ms : List Message) :
    (deliverAll now { i with paused } ms).1 = { (deliverAll now i ms).1 with paused } := by
  induction ms generalizing i with
  | nil => rfl
  | cons m ms ih =>
    have hfate : ({ i with paused } : Instance).fate m = i.fate m := rfl
    have hfirst : ({ i with paused } : Instance).deliver m now = { i.deliver m now with paused } := by
      rw [deliver, deliver, hfate]
      cases i.fate m <;> rfl
    simp only [deliverAll, hfirst, ih]

@[simp] theorem paused_deliver (i : Instance) (m : Message) (now : Int) :
    (i.deliver m now).paused = i.paused := by
  unfold deliver
  cases i.fate m <;> rfl

theorem paused_receive (i : Instance) (now : Int) (r : Request) :
    (i.receive now r).paused = (r.pauses? i.storyId).getD i.paused := by
  cases r with
  | stop | pause =>
    simp only [receive, Request.pauses?]
    split <;> rfl
  | send m args concurrent => exact paused_deliver _ _ _
  | start | pauseHandlers => rfl

/-- The first of some requests brings a story the message that it sends, if it is due, and all else
that it does is to pause the story, to let it go on, or to stop it. -/
theorem deliverAll_receive (i : Instance) (now : Int) (r : Request) (rs : List Request)
    (paused terminated : Bool) :
    ({ (deliverAll now (i.receive now r) ((i.receive now r).due rs)).1 with
        paused, terminated } : Instance) =
      { (deliverAll now i (i.due (r :: rs))).1 with paused, terminated } := by
  rw [due_cons, due, terminated_receive, (i.remains_receive now r).storyId]
  cases hgone : i.terminated || r.stops i.storyId with
  | true =>
    cases r with
    | send m args concurrent =>
      have hover : i.terminated = true := by simpa [Request.stops] using hgone
      exact congrArg (fun j : Instance => { j with paused, terminated })
        (deliver_of_terminated hover ⟨m, args, concurrent⟩ now)
    | stop | pause =>
      simp only [receive]
      split <;> rfl
    | start | pauseHandlers => rfl
  | false =>
    obtain ⟨hlive, hstays⟩ : i.terminated = false ∧ r.stops i.storyId = false := by simpa using hgone
    rw [due, hlive]
    cases r with
    | send | start | pauseHandlers => rfl
    | stop id =>
      have hid : i.storyId ≠ id := by simpa [Request.stops, eq_comm] using hstays
      rw [receive, if_neg hid]
      rfl
    | pause id p =>
      simp only [receive]
      split
      · exact congrArg (fun j : Instance => { j with paused, terminated })
          (deliverAll_paused now i p _)
      · rfl

/-- A story after some requests were granted: the messages that were due came to it one after
another, the last request about it tells whether it is paused, and it is terminated if it was to be
stopped. -/
theorem receiveAll_eq (i : Instance) (now : Int) (rs : List Request) :
    i.receiveAll now rs = { (deliverAll now i (i.due rs)).1 with
      paused := Request.settled i.paused (rs.filterMap (Request.pauses? i.storyId))
      terminated := i.terminated || rs.any (Request.stops i.storyId) } := by
  induction rs generalizing i with
  | nil => simp [receiveAll, due, Request.sentTo, deliverAll, Request.settled]
  | cons r rs ih =>
    have hfirst : i.receiveAll now (r :: rs) = (i.receive now r).receiveAll now rs := rfl
    have hstory : (i.receive now r).storyId = i.storyId := (i.remains_receive now r).storyId
    have hpaused : Request.settled (i.receive now r).paused
          (rs.filterMap (Request.pauses? i.storyId)) =
        Request.settled i.paused ((r :: rs).filterMap (Request.pauses? i.storyId)) := by
      rw [paused_receive, Request.settled_cons]
    have hover : ((i.receive now r).terminated || rs.any (Request.stops i.storyId)) =
        (i.terminated || (r :: rs).any (Request.stops i.storyId)) := by
      rw [terminated_receive, List.any_cons, Bool.or_assoc]
    rw [hfirst, ih, hstory, hpaused, hover]
    exact i.deliverAll_receive now r rs _ _

/-- A story that is started at some time, after some requests were granted to it. -/
def started (reading now : Int) (n : Nat) (t : Template) (later : List Request) : Instance :=
  (({ id := n, template := t } : Instance).deliver ⟨startMessage, [], false⟩ reading).receiveAll now
    later

end Instance

/-! ### All stories -/

/-- A story to which requests are granted: as it is before them, the messages that are to come to it
by them, each with the time at which it comes, and the requests that are made while it is there. -/
structure Receiver where
  story : Instance
  messages : List (Message × Int)
  requests : List Request

namespace Receiver

/-- A story that is there before some requests. -/
def ofInstance (now : Int) (rs : List Request) (i : Instance) : Receiver :=
  ⟨i, (i.due rs).map (·, now), rs⟩

/-- A story that one of some requests starts, with the requests that come after. Its start comes at a
time of its own, all else at the time of the tick. -/
def ofStart (reading now : Int) (n : Nat) (t : Template) (later : List Request) : Receiver :=
  ⟨{ id := n, template := t },
    (⟨startMessage, [], false⟩, reading) :: (Request.sentTo t.storyId later).map (·, now), later⟩

/-- The story after its messages came one after another. Else it is only paused by the last request
about it, and stopped by the first. -/
def outcome (x : Receiver) : Instance :=
  { x.story.taking x.messages with
    paused := Request.settled x.story.paused (x.requests.filterMap (Request.pauses? x.story.storyId))
    terminated := x.story.terminated || x.requests.any (Request.stops x.story.storyId) }

/-- What a story is after requests were granted to it. -/
structure Gets (x : Receiver) (i : Instance) : Prop where
  state : i = x.outcome
  /-- No message is lost. Each adds one handler, at work or waiting to be, if the story has one for
  it. -/
  adds : ∀ before m now after, x.messages = before ++ (m, now) :: after →
    let j := x.story.taking before
    j.fate m ≠ .lost ∧ ∀ id, (j.deliver m now).handlerCount id =
      j.handlerCount id + if m.id = id ∧ x.story.template.hasHandler id = true then 1 else 0
  /-- So many handlers of a message are at work or wait to be as before, and one for each time that
  it came. -/
  count : ∀ id, i.handlerCount id = x.story.handlerCount id +
    if x.story.template.hasHandler id then Message.countTo id (x.messages.map (·.1)) else 0

theorem Gets.of_state {x : Receiver} {i : Instance}
    (hlive : x.messages ≠ [] → x.story.terminated = false) (h : i = x.outcome) : x.Gets i := by
  refine ⟨h, fun before m now after hms => ?_, fun id => ?_⟩
  · have hgets := hlive (by simp [hms])
    obtain ⟨htemplate, hterminated⟩ := x.story.taking_frame before
    have hcomes := hterminated.trans hgets
    refine ⟨?_, fun id => ?_⟩
    · unfold Instance.fate
      rw [if_neg (by simp [hcomes])]
      split
      · simp
      · split <;> simp
    · rw [Instance.handlerCount_deliver hcomes, htemplate]
  · have hcount : i.handlerCount id = (x.story.taking x.messages).handlerCount id := by
      rw [h]
      rfl
    rw [hcount]
    cases hms : x.messages with
    | nil => simp [Instance.taking]
    | cons m ms => exact Instance.handlerCount_taking (hlive (by simp [hms])) _ id

theorem gets_ofInstance (now : Int) (rs : List Request) (i : Instance) :
    (ofInstance now rs i).Gets (i.receiveAll now rs) := by
  refine .of_state (fun hms => ?_) ?_
  · cases hlive : i.terminated with
    | false => exact hlive
    | true => exact absurd (by simp [ofInstance, Instance.due, hlive]) hms
  · rw [i.receiveAll_eq, outcome, ofInstance, Instance.taking_map]

theorem gets_ofStart (reading now : Int) (n : Nat) (t : Template) (later : List Request) :
    (ofStart reading now n t later).Gets (Instance.started reading now n t later) := by
  refine .of_state (fun _ => rfl) ?_
  have hbegun :=
    ({ id := n, template := t } : Instance).remains_deliver ⟨startMessage, [], false⟩ reading
  have htaking : (ofStart reading now n t later).story.taking (ofStart reading now n t later).messages =
      (({ id := n, template := t } : Instance).deliver ⟨startMessage, [], false⟩ reading).taking
        ((Request.sentTo t.storyId later).map (·, now)) := rfl
  rw [outcome, htaking, Instance.started]
  generalize hj : Instance.deliver _ _ _ = j at hbegun ⊢
  have hlive : j.terminated = false := by simp [← hj]
  have hpaused : j.paused = false := by simp [← hj]
  have hdue : j.due later = Request.sentTo t.storyId later := by
    rw [Instance.due, hlive, hbegun.storyId]
    rfl
  rw [Instance.receiveAll_eq, Instance.taking_map, hdue, hlive, hpaused, hbegun.storyId]
  rfl

end Receiver

namespace Library

theorem started_start {l : Library} {id : String} {t : Template} (ht : l.find? id = some t)
    (rs : List Request) : l.started (.start id :: rs) = (t, rs) :: l.started rs := by
  simp [started, ht]

theorem started_cons {l : Library} {r : Request} (hr : ∀ id, r = .start id → l.find? id = none)
    (rs : List Request) : l.started (r :: rs) = l.started rs := by
  cases r with
  | start id => simp [started, hr id rfl]
  | stop | pause | send | pauseHandlers => simp [started]

end Library

namespace Host
variable {η : Type}

/-- All stories to which some requests are granted in a tick: those that are there before them, and
after these the ones that are started, in their order. -/
def receivers (h : Host η) (now : Int) (rs : List Request) : List Receiver :=
  h.instances.map (.ofInstance now rs) ++
    ((h.library.started rs).zipIdx h.nextId).map fun x =>
      .ofStart (h.reading x.2) now x.2 x.1.1 x.1.2

theorem grantAll_eq (h : Host η) (now : Int) (rs : List Request) :
    (h.grantAll now rs).1.instances = h.instances.map (fun i => i.receiveAll now rs) ++
        ((h.library.started rs).zipIdx h.nextId).map
          (fun x => Instance.started (h.reading x.2) now x.2 x.1.1 x.1.2) ∧
      (h.grantAll now rs).1.nextId = h.nextId + (h.library.started rs).length := by
  induction rs generalizing h with
  | nil => simp [grantAll, Instance.receiveAll, Library.started]
  | cons r rs ih =>
    obtain ⟨hinstances, hnextId⟩ := ih (h.grant now r).1
    have hlibrary := (h.sameSite_grant now r).library
    -- The stories that are started later are so at the same time as before this request.
    have hreading : ((h.library.started rs).zipIdx (h.grant now r).1.nextId).map
          (fun x => Instance.started ((h.grant now r).1.reading x.2) now x.2 x.1.1 x.1.2) =
        ((h.library.started rs).zipIdx (h.grant now r).1.nextId).map
          fun x => Instance.started (h.reading x.2) now x.2 x.1.1 x.1.2 :=
      List.map_congr_left fun x hx => by rw [reading_grant h now r (List.le_snd_of_mem_zipIdx hx)]
    rw [hlibrary, hreading, instances_grant, nextId_grant, List.map_append, List.map_map] at hinstances
    rw [hlibrary, nextId_grant] at hnextId
    simp only [grantAll, hinstances, hnextId]
    cases hs : h.started? r with
    | none =>
      have hnone : h.library.started (r :: rs) = h.library.started rs := by
        refine Library.started_cons (fun id hr => ?_) rs
        simpa [started?, hr] using hs
      simp [hnone, Instance.receiveAll, Function.comp_def]
    | some i =>
      obtain ⟨id, t, rfl, ht, rfl⟩ := started?_eq_some hs
      rw [Library.started_start ht, List.zipIdx_cons, List.append_assoc, List.length_cons,
        List.map_cons, reading_nextId]
      exact ⟨rfl, Nat.add_right_comm _ _ _⟩

/-- Every story gets what it is to get when some requests are granted. -/
theorem forall₂_receivers (h : Host η) (now : Int) (rs : List Request) :
    List.Forall₂ Receiver.Gets (h.receivers now rs) (h.grantAll now rs).1.instances := by
  rw [(h.grantAll_eq now rs).1, receivers]
  refine List.rel_append ?_ ?_
  · rw [List.forall₂_map_left_iff, List.forall₂_map_right_iff, List.forall₂_same]
    exact fun i _ => Receiver.gets_ofInstance now rs i
  · rw [List.forall₂_map_left_iff, List.forall₂_map_right_iff, List.forall₂_same]
    exact fun x _ => Receiver.gets_ofStart (h.reading x.2) now x.2 x.1.1 x.1.2

theorem pausedHandlers_grant (h : Host η) (now : Int) (r : Request) (m : String) :
    (h.grant now r).1.pausedHandlers.contains m = (r.holds? m).getD (h.pausedHandlers.contains m) := by
  cases r with
  | pauseHandlers m' paused =>
    cases paused <;> by_cases hm : m = m' <;> simp [grant, Request.holds?, hm]
  | start id =>
    simp only [grant, startStory]
    cases h.library.find? id <;> rfl
  | stop | pause | send => rfl

theorem pausedHandlers_grantAll (h : Host η) (now : Int) (rs : List Request) (m : String) :
    (h.grantAll now rs).1.pausedHandlers.contains m =
      Request.settled (h.pausedHandlers.contains m) (rs.filterMap (Request.holds? m)) := by
  induction rs generalizing h with
  | nil => rfl
  | cons r rs ih => simp only [grantAll, ih, pausedHandlers_grant, Request.settled_cons]

theorem grantAll_append (h : Host η) (now : Int) (rs rs' : List Request) :
    (h.grantAll now (rs ++ rs')).1 = ((h.grantAll now rs).1.grantAll now rs').1 := by
  induction rs generalizing h with
  | nil => rfl
  | cons r rs ih => exact ih (h.grant now r).1

/-- A story that is not in the library is not started, and nothing else comes of the request. -/
theorem grantAll_unknown (h : Host η) {id : String} (hid : h.library.find? id = none) (now : Int)
    (before after : List Request) :
    (h.grantAll now (before ++ .start id :: after)).1 = (h.grantAll now (before ++ after)).1 := by
  have hlibrary := (h.sameSite_grantAll now before).library
  rw [grantAll_append, grantAll_append]
  simp [grantAll, grant, startStory, hlibrary, hid]

/-- The host with some requests that wait for the next tick, instead of those that did. -/
def asking (h : Host η) (rs : List Request) : Host η :=
  { h with board := { h.board with requests := rs } }

/-- Whatever requests wait for the next tick, it begins by granting each of them once. The stories
that were there, and those that are started, get the messages that are sent while they are there. A
request to start a story that is not in the library is as if it had not been made. -/
theorem granted_asking (h : Host η) (rs : List Request) :
    let found := (h.asking rs).granted.1
    found.board = { h.board with requests := [] } ∧
      List.Forall₂ Receiver.Gets (h.receivers h.clock rs) found.instances ∧
      found.nextId = h.nextId + (h.library.started rs).length ∧
      (∀ m, found.pausedHandlers.contains m =
        Request.settled (h.pausedHandlers.contains m) (rs.filterMap (Request.holds? m))) ∧
      ∀ before id after, rs = before ++ .start id :: after → h.library.find? id = none →
        found = (h.asking (before ++ after)).granted.1 := by
  intro found
  let emptied : Host η := { h with board := { h.board with requests := [] } }
  refine ⟨?_, ?_, ?_, ?_, ?_⟩
  · exact (emptied.sameSite_grantAll h.clock rs).board
  · exact emptied.forall₂_receivers h.clock rs
  · exact (emptied.grantAll_eq h.clock rs).2
  · exact emptied.pausedHandlers_grantAll h.clock rs
  · rintro before id after rfl hid
    exact emptied.grantAll_unknown hid h.clock before after

/-- The bell that rings is told to ring twice before it is stopped. Another one starts in between, and
is told once. There is no gong. -/
theorem granted_ringing :
    let before := [.send "ring" [] false, .start "bell"]
    let after := [.send "ring" [] false, .stop "bell", .send "ring" [] false]
    let rs := before ++ .start "gong" :: after
    ringing.Reached ∧
      (ringing.receivers ringing.clock rs).map (fun x => x.messages.map (·.1.id)) =
        [["ring", "ring"], ["start", "ring"]] ∧
      List.Forall₂ Receiver.Gets (ringing.receivers ringing.clock rs)
        (ringing.asking rs).granted.1.instances ∧
      (ringing.asking rs).granted.1 = (ringing.asking (before ++ after)).granted.1 := by
  intro before after rs
  obtain ⟨-, hgets, -, -, hunknown⟩ := granted_asking ringing rs
  have hgong : ringing.library.find? "gong" = none := by decide +kernel
  exact ⟨reached_ringing, by decide +kernel, hgets, hunknown before "gong" after rfl hgong⟩

end Host
end StoryScript
