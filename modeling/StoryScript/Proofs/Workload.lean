import StoryScript.Proofs.Handling
import StoryScript.Proofs.Overlap
import StoryScript.Proofs.Reach

/-! The handlers that the board counts at the end of a tick, and those that the next tick finds at
work. Every message that is asked for counts once for each story that handled it at the beginning of
the tick, so the board covers what those stories will have to do. It does not cover what a story
will have to do that is only asked for in the tick. -/
namespace StoryScript

/-! ### What a story has to do -/

namespace Instance

/-- How many handlers of a message are at work in a story or wait to be, if it is not terminated. -/
def load (m : String) (i : Instance) : Nat := if i.terminated then 0 else i.handlerCount m

/-- Whether a story that is not terminated handles a message. -/
def owns (m : String) (i : Instance) : Bool := !i.terminated && i.template.hasHandler m

theorem handlerCount_eq (i : Instance) (m : String) :
    i.handlerCount m = Message.countTo m i.atWork + (i.queued.of m).length := by
  simp [handlerCount, atWork, Message.countTo, List.filter_map, Function.comp_def]

end Instance

namespace Instance

/-- A story has no handler at work for a message that it does not handle. -/
theorem Keeps.handlerCount_eq_zero {i : Instance} {J : Journal} (h : i.Keeps J)
    (hlive : i.terminated = false) {m : String} (hm : i.template.hasHandler m = false) :
    i.handlerCount m = 0 := by
  obtain ⟨R, Q, posts, hJ, -, hleft⟩ := h
  obtain ⟨rfl, rfl, -⟩ := hleft hlive
  have hanswers : ¬ i.template.answers m := by
    simpa [Template.answers, Template.hasHandler, Template.handler?, Table.contains] using hm
  have hwork : Message.countTo m i.atWork = 0 := by
    rw [Message.countTo_eq_zero]
    rintro n hn rfl
    exact hanswers (hJ.answers n hn)
  have hwaits : i.queued.of m = [] :=
    List.eq_nil_iff_forall_not_mem.2 fun n hn => hanswers (hJ.waiting m n hn).2.2
  rw [handlerCount_eq, hwork, hwaits]
  rfl

theorem Keeps.load_eq_zero {i : Instance} {J : Journal} (h : i.Keeps J) {m : String}
    (hm : i.template.hasHandler m = false) : i.load m = 0 := by
  cases hlive : i.terminated with
  | true => simp [load, hlive]
  | false => simp [load, hlive, h.handlerCount_eq_zero hlive hm]

/-- What came to a handler and is not over is at work or waits. -/
theorem Keeps.handlerCount_add {i : Instance} {J : Journal} (h : i.Keeps J)
    (hlive : i.terminated = false) {m : String} (hm : i.template.hasHandler m = true) :
    i.handlerCount m + Message.countTo m (J.of .ended) = Message.countTo m (J.of .came) := by
  obtain ⟨R, Q, posts, hJ, -, hleft⟩ := h
  obtain ⟨rfl, rfl, -⟩ := hleft hlive
  have hcame := hJ.countTo_came (show i.template.answers m from hm)
  have hbegan := (hJ.running.filter (·.id = m)).length_eq
  rw [List.filter_append, List.length_append] at hbegan
  rw [handlerCount_eq]
  simp only [Message.countTo] at hcame ⊢
  omega

/-! ### Requests and ticks -/

end Instance

/-- Whether a request is one to send a message. -/
def Request.sends (message : String) (r : Request) : Bool := r.message? = some message

namespace Instance

theorem Remains.owns {i i' : Instance} (h : Remains i i') {m : String} (ho : i'.owns m = true) :
    i.owns m = true := by
  obtain ⟨hlive', hm⟩ : i'.terminated = false ∧ i'.template.hasHandler m = true := by
    simpa [Instance.owns] using ho
  rw [h.template] at hm
  simp [Instance.owns, h.live hlive', hm]

/-- A message that comes adds one handler, at work or waiting to be, if the story has one for it. -/
theorem handlerCount_deliver {i : Instance} (hlive : i.terminated = false) (msg : Message) (now : Int)
    (m : String) : (i.deliver msg now).handlerCount m =
      i.handlerCount m + if msg.id = m ∧ i.template.hasHandler m = true then 1 else 0 := by
  have hcount (s : Scope) (R : List Runner) (Q : Waitlist) :
      ({ i with scope := s, runners := R, queued := Q } : Instance).handlerCount m =
        (R.filter (·.message.id = m)).length + (Q.of m).length := rfl
  unfold deliver fate
  rw [if_neg (by simp [hlive])]
  split
  · next ha =>
    have hnone : ¬ (msg.id = m ∧ i.template.hasHandler m = true) := by
      rintro ⟨rfl, hhas⟩
      exact Template.not_answers_of_activate? ha hhas
    rw [if_neg hnone]
    rfl
  · next r ha =>
    obtain ⟨hhas, hr⟩ := Template.answers_of_activate? ha
    have honly : (msg.id = m ∧ i.template.hasHandler m = true) ↔ msg.id = m :=
      ⟨And.left, fun hm => ⟨hm, by rw [← hm]; exact hhas⟩⟩
    simp only [honly]
    split
    · simp only [take, note, hcount, Waitlist.of_push, eq_comm (a := m)]
      split <;> simp [Nat.add_assoc]
    · simp only [take, note, hcount, List.filter_append]
      by_cases hm : msg.id = m <;> simp [hm, hr, Nat.add_right_comm]

theorem load_deliver (i : Instance) (msg : Message) (now : Int) (m : String) :
    (i.deliver msg now).load m = i.load m + if msg.id = m ∧ i.owns m = true then 1 else 0 := by
  cases hlive : i.terminated with
  | true => simp [load, owns, hlive]
  | false =>
    have hadds := handlerCount_deliver hlive msg now m
    simpa [load, owns, hlive] using hadds

/-- A request adds to what a story has to do if it sends a message that the story handles. -/
theorem load_receive (i : Instance) (now : Int) (r : Request) (m : String) :
    (i.receive now r).load m ≤ i.load m + if r.sends m ∧ i.owns m = true then 1 else 0 := by
  cases r with
  | send msg args concurrent =>
    have h := i.load_deliver ⟨msg, args, concurrent⟩ now m
    simpa [receive, Request.sends, Request.message?] using h.le
  | stop id =>
    simp only [receive]
    split
    · simp [load, terminate]
    · exact Nat.le_add_right _ _
  | pause id paused =>
    simp only [receive]
    split <;> exact Nat.le_add_right _ _
  | start | pauseHandlers => exact Nat.le_add_right _ _

theorem load_receiveAll (i : Instance) (now : Int) (rs : List Request) (m : String) :
    (i.receiveAll now rs).load m ≤
      i.load m + if i.owns m then rs.countP (Request.sends m) else 0 := by
  induction rs generalizing i with
  | nil => exact Nat.le_add_right _ _
  | cons r rs ih =>
    have hfirst := i.load_receive now r m
    have hrest := ih (i.receive now r)
    have howns : (i.receive now r).owns m = true → i.owns m = true := (i.remains_receive now r).owns
    rw [List.countP_cons]
    simp only [receiveAll, List.foldl_cons] at hrest ⊢
    cases ho : i.owns m with
    | false =>
      have ho' : (i.receive now r).owns m = false := by
        cases ho' : (i.receive now r).owns m with
        | false => rfl
        | true => exact (howns ho').symm.trans ho
      simp only [ho, ho', Bool.false_eq_true, and_false, if_false] at hfirst hrest ⊢
      omega
    | true =>
      have hle : (if (i.receive now r).owns m then rs.countP (Request.sends m) else 0) ≤
          rs.countP (Request.sends m) := by
        split <;> omega
      simp only [ho, and_true, if_true] at hfirst ⊢
      omega

variable {ω : Type} [World ω]

/-- A story to which nothing was posted has no more to do after a tick than before. -/
theorem load_account {i : Instance} {J : Journal} (hk : i.Keeps J) (hposted : i.posted = [])
    (b : Beat) (steps : Nat) (w : ω) (m : String) :
    (i.account b steps w).inst.load m ≤ i.load m := by
  have hremains := i.remains_account b steps w
  have hk' := keeps_account hk b steps w
  have hcame := came_of_account i b steps w
  have harrivals : (i.account b steps w).arrivals.map (·.message) = [] := by
    rw [arrivals_account, hposted, ite_self]
  cases hlive' : (i.account b steps w).inst.terminated with
  | true => simp [load, hlive']
  | false =>
    have hlive := hremains.live hlive'
    simp only [load, hlive, hlive', Bool.false_eq_true, if_false]
    cases hm : i.template.hasHandler m with
    | false =>
      rw [← hremains.template] at hm
      exact (hk'.handlerCount_eq_zero hlive' hm).le.trans (Nat.zero_le _)
    | true =>
      have h := hk.handlerCount_add hlive hm
      rw [← hremains.template] at hm
      have h' := hk'.handlerCount_add hlive' hm
      rw [Journal.of_append, Journal.of_append, hcame, harrivals, List.append_nil,
        Message.countTo_append] at h'
      omega

end Instance

/-! ### What the board counts -/

theorem sumOf_append {α : Type} (f : α → Nat) (l r : List α) :
    sumOf f (l ++ r) = sumOf f l + sumOf f r := by
  induction l with
  | nil => simp [sumOf]
  | cons x l ih => simp [sumOf, ih, Nat.add_assoc]

theorem sumOf_eq_zero {α : Type} {f : α → Nat} {l : List α} (h : ∀ x ∈ l, f x = 0) :
    sumOf f l = 0 := by
  induction l with
  | nil => rfl
  | cons x l ih =>
    obtain ⟨hx, hl⟩ := List.forall_mem_cons.1 h
    rw [sumOf, hx, ih hl]

namespace Board

/-- Counting once more for each of some names. -/
theorem count_foldl_bump (f : String → Nat) {ks : List String} (hks : ks.Nodup) (t : Table Nat)
    (m : String) :
    count (ks.foldl (fun t k => bump t k (f k)) t) m = count t m + if m ∈ ks then f m else 0 := by
  induction ks generalizing t with
  | nil => rfl
  | cons k ks ih =>
    obtain ⟨hk, hks⟩ := List.nodup_cons.1 hks
    rw [List.foldl_cons, ih hks, count_bump]
    by_cases hm : m = k
    · subst hm
      simp [hk]
    · simp [hm]

theorem owners_countInstance (b : Board) (i : Instance) (m : String) :
    count (b.countInstance i).owners m =
      count b.owners m + if i.template.hasHandler m then 1 else 0 := by
  have h := count_foldl_bump (fun _ => 1) i.template.handlers.nodup_keys b.owners m
  simp only [Table.mem_keys] at h
  exact h

theorem handlers_countInstance (b : Board) (i : Instance) (m : String) :
    count (b.countInstance i).handlers m =
      count b.handlers m + if i.template.hasHandler m then i.handlerCount m else 0 := by
  have h := count_foldl_bump i.handlerCount i.template.handlers.nodup_keys b.handlers m
  simp only [Table.mem_keys] at h
  exact h

theorem owners_refresh (b : Board) (is : List Instance) (m : String) :
    count (b.refresh is).owners m = is.countP (Instance.owns m) := by
  have hfold (is : List Instance) (c : Board) : count (is.foldl countInstance c).owners m =
      count c.owners m + is.countP (·.template.hasHandler m) := by
    induction is generalizing c with
    | nil => rfl
    | cons i is ih =>
      rw [List.foldl_cons, ih, owners_countInstance, List.countP_cons]
      omega
  have hempty : count (∅ : Table Nat) m = 0 := rfl
  rw [refresh, hfold, hempty, Nat.zero_add, List.countP_filter]
  congr 1
  funext i
  exact Bool.and_comm _ _

theorem handlers_refresh (b : Board) {is : List Instance} (hk : ∀ i ∈ is, ∃ J, i.Keeps J)
    (m : String) :
    count (b.refresh is).handlers m = sumOf (Instance.load m) is := by
  suffices hfold : ∀ c : Board,
      count ((is.filter (!·.terminated)).foldl countInstance c).handlers m =
        count c.handlers m + sumOf (Instance.load m) is by
    have h := hfold { requests := b.requests }
    rwa [show count (∅ : Table Nat) m = 0 from rfl, Nat.zero_add] at h
  induction is with
  | nil => exact fun c => rfl
  | cons i is ih =>
    obtain ⟨⟨J, hJ⟩, hks⟩ := List.forall_mem_cons.1 hk
    intro c
    cases hlive : i.terminated with
    | true => simpa [hlive, sumOf, Instance.load] using ih hks c
    | false =>
      have hload : i.load m = if i.template.hasHandler m then i.handlerCount m else 0 := by
        cases hm : i.template.hasHandler m with
        | true => simp [Instance.load, hlive]
        | false => simp [Instance.load, hlive, hJ.handlerCount_eq_zero hlive hm]
      have hfirst := handlers_countInstance c i m
      rw [← hload] at hfirst
      have hrest := ih hks (c.countInstance i)
      simp only [hlive, Bool.not_false, List.filter_cons_of_pos, List.foldl_cons, sumOf]
      omega

theorem handlers_askAll (b : Board) (rs : List Request) (m : String) :
    count (b.askAll rs).handlers m =
      count b.handlers m + rs.countP (Request.sends m) * count b.owners m := by
  induction rs generalizing b with
  | nil => simp [askAll]
  | cons r rs ih =>
    have hr : count (b.ask r).handlers m =
        count b.handlers m + if r.sends m then count b.owners m else 0 := by
      cases r with
      | send msg args concurrent =>
        have hask : (b.ask (.send msg args concurrent)).handlers =
            bump b.handlers msg (count b.owners msg) := rfl
        rw [hask, count_bump]
        by_cases hm : msg = m
        · simp [Request.sends, Request.message?, hm]
        · simp [Request.sends, Request.message?, hm, Ne.symm hm]
      | start | stop | pause | pauseHandlers => rfl
    have howners : (b.ask r).owners = b.owners := by cases r <;> rfl
    have hrest := ih (b.ask r)
    rw [howners, hr] at hrest
    rw [askAll, List.foldl_cons, ← askAll, hrest, List.countP_cons]
    cases r.sends m <;> simp
    ring

end Board

/-! ### What the next tick finds -/

namespace Host
variable {η : Type}

variable [HostFunctions η]

omit [HostFunctions η] in
theorem posted_receive (i : Instance) (now : Int) (r : Request) :
    (i.receive now r).posted = i.posted := by
  cases r with
  | stop id | pause id paused =>
    simp only [Instance.receive]
    split <;> rfl
  | send m args concurrent =>
    simp only [Instance.receive, Instance.deliver]
    cases i.fate ⟨m, args, concurrent⟩ <;> rfl
  | start | pauseHandlers => rfl

omit [HostFunctions η] in
theorem posted_newcomer (h : Host η) (t : Template) : (h.newcomer t).posted = [] := by
  simp only [newcomer, Instance.deliver]
  cases Instance.fate _ _ <;> rfl

omit [HostFunctions η] in
/-- Nothing is posted by granting requests. -/
theorem posted_grantAll {h : Host η} (hposts : ∀ i ∈ h.instances, i.posted = []) (now : Int)
    (rs : List Request) : ∀ i ∈ (h.grantAll now rs).1.instances, i.posted = [] := by
  refine forall_grantAll (fun h r i hs => ?_) (fun i now r hi => ?_) hposts now rs
  · obtain ⟨id, t, -, -, rfl⟩ := started?_eq_some hs
    exact h.posted_newcomer t
  · rw [posted_receive, hi]

theorem load_runInstances {ω : Type} [World ω] (b : Instance.Beat) (steps : Nat) (w : ω)
    {is : List Instance} (hk : ∀ i ∈ is, ∃ J, i.Keeps J) (hposts : ∀ i ∈ is, i.posted = [])
    (m : String) :
    sumOf (Instance.load m) (runInstances b steps w is).1 ≤ sumOf (Instance.load m) is := by
  induction is generalizing w with
  | nil => exact le_refl 0
  | cons i is ih =>
    obtain ⟨⟨J, hJ⟩, hks⟩ := List.forall_mem_cons.1 hk
    obtain ⟨hposted, hrest⟩ := List.forall_mem_cons.1 hposts
    have hi := Instance.load_account hJ hposted b steps w m
    exact Nat.add_le_add hi (ih _ hks hrest)

omit [HostFunctions η] in
theorem sumOf_handlerCount (is : List Instance) (m : String) :
    sumOf (·.handlerCount m) (is.filter (!·.terminated)) = sumOf (Instance.load m) is := by
  induction is with
  | nil => rfl
  | cons i is ih => cases hlive : i.terminated <;> simp [sumOf, hlive, Instance.load, ih]

omit [HostFunctions η] in
theorem sumOf_load_filter (p : Instance → Bool) (is : List Instance) (m : String) :
    sumOf (Instance.load m) (is.filter p) ≤ sumOf (Instance.load m) is := by
  induction is with
  | nil => exact le_refl 0
  | cons i is ih =>
    cases hp : p i with
    | true => simpa [hp, sumOf] using ih
    | false => simpa [hp, sumOf] using ih.trans (Nat.le_add_left _ _)

omit [HostFunctions η] in
theorem owns_of_remains {is is' : List Instance} (h : List.Forall₂ Instance.Remains is is')
    (m : String) : is'.countP (Instance.owns m) ≤ is.countP (Instance.owns m) := by
  induction h with
  | nil => exact le_refl 0
  | @cons i i' _ _ hi _ ih =>
    rw [List.countP_cons, List.countP_cons]
    have howns : i'.owns m = true → i.owns m = true := hi.owns
    cases ho' : i'.owns m with
    | true => simpa [howns ho'] using ih
    | false => exact ih.trans (Nat.le_add_right _ _)

omit [HostFunctions η] in
/-- Stories have as much more to do after requests as messages were sent to them. -/
theorem load_map_receiveAll (is : List Instance) (now : Int) (rs : List Request) (m : String) :
    sumOf (Instance.load m) (is.map fun i => i.receiveAll now rs) ≤
      sumOf (Instance.load m) is + rs.countP (Request.sends m) * is.countP (Instance.owns m) := by
  induction is with
  | nil => exact Nat.zero_le _
  | cons i is ih =>
    have hi := i.load_receiveAll now rs m
    rw [List.countP_cons, List.map_cons, sumOf, sumOf, Nat.mul_add]
    cases ho : i.owns m <;> simp only [ho, Bool.false_eq_true, if_false, if_true] at hi ⊢ <;> omega

/-- What the stories of a tick have to do at the beginning of the next one is counted on the board at
the end of the tick. -/
theorem load_foretold {h : Host η} (ho : h.Orderly) (hposts : ∀ i ∈ h.instances, i.posted = [])
    (delta next : Int) (m : String) :
    sumOf (Instance.load m)
        ((h.tick delta).1.instances.map fun i => i.receiveAll next (h.asked delta)) ≤
      Board.count (h.tick delta).1.board.handlers m := by
  have hopened : ∀ i ∈ h.opened.instances, ∃ J, i.Keeps J := ho.opened.keeps
  have hcount : Board.count (h.tick delta).1.board.handlers m =
      sumOf (Instance.load m) h.opened.instances + (h.asked delta).countP (Request.sends m) *
        h.opened.instances.countP (Instance.owns m) := by
    rw [board_tick, Board.handlers_askAll, scene, Board.handlers_refresh _ hopened,
      Board.owners_refresh]
  have hran := load_runInstances (h.beat delta) h.opened.steps h.scene hopened
    (posted_grantAll (h := h.emptied) hposts h.clock h.board.requests) m
  have hkept := sumOf_load_filter (!·.isFinished) (h.ran delta) m
  have hremains := owns_of_remains
    (forall₂_runInstances (h.beat delta) h.opened.steps h.scene h.opened.instances) m
  have howns : (h.tick delta).1.instances.countP (Instance.owns m) ≤
      h.opened.instances.countP (Instance.owns m) :=
    (List.filter_sublist.countP_le).trans hremains
  have hafter := load_map_receiveAll (h.tick delta).1.instances next (h.asked delta) m
  have hmul := Nat.mul_le_mul_left ((h.asked delta).countP (Request.sends m)) howns
  rw [hcount]
  exact hafter.trans (Nat.add_le_add (hkept.trans hran) hmul)

/-- What the stories that were there in a tick have to do at the beginning of the next one is counted
on the board at the end of the tick. So is all there is to do, unless a story is asked for in the tick
that handles the message itself. -/
theorem handlerCount_foretold {h : Host η} (hr : h.Reached)
    (hposts : ∀ i ∈ h.instances, i.posted = []) (now delta next : Int) (m : String) :
    let host := h.asOf now
    let after := (host.tick delta).1
    let found := (after.asOf next).opened
    let foretold := Board.count after.board.handlers m
    sumOf (·.handlerCount m)
        (found.instances.filter fun i => !i.terminated && i.id < after.nextId) ≤ foretold ∧
      ((∀ id t, .requested (.start id) ∈ (host.tick delta).2.effects →
          h.library.find? id = some t → t.hasHandler m = false) →
        found.handlerCount m ≤ foretold) := by
  intro host after found foretold
  have ho : host.Orderly := hr.orderly.asOf now
  have hload := load_foretold ho hposts delta next m
  have hrequests : after.board.requests = host.asked delta := host.requests_tick delta
  have hlibrary : after.library = h.library := host.library_tick delta
  obtain ⟨newer, hinstances, hnewer⟩ :=
    (after.asOf next).emptied.instances_grantAll next after.board.requests
  have hfound : found.instances =
      (after.instances.map fun i => i.receiveAll next (host.asked delta)) ++ newer := by
    rw [← hrequests]
    exact hinstances
  have hbelow : ∀ i ∈ after.instances.map fun i => i.receiveAll next (host.asked delta),
      decide (i.id < after.nextId) = true := by
    intro i' hi'
    obtain ⟨i, hi, rfl⟩ := List.mem_map.1 hi'
    rw [(i.remains_receiveAll next _).id]
    exact decide_eq_true ((ho.tick delta).below i hi)
  have habove : ∀ i ∈ newer, ¬ decide (i.id < after.nextId) = true := by
    intro i hi
    have hid : after.nextId ≤ i.id := (hnewer i hi).1
    simp only [decide_eq_true_eq]
    omega
  constructor
  · rw [← List.filter_filter, sumOf_handlerCount, hfound, List.filter_append,
      List.filter_eq_self.2 hbelow, List.filter_eq_nil_iff.2 habove, List.append_nil]
    exact hload
  · intro hstarted
    have hkeeps := ((ho.tick delta).asOf next).opened.keeps
    have hnothing : ∀ i ∈ newer, i.load m = 0 := by
      intro i hi
      obtain ⟨-, id, hstart, ht⟩ := hnewer i hi
      rw [hrequests, mem_asked] at hstart
      have hm := hstarted id i.template hstart (hlibrary ▸ ht)
      obtain ⟨J, hJ⟩ := hkeeps i (by rw [hfound]; exact List.mem_append_right _ hi)
      exact hJ.load_eq_zero hm
    rw [handlerCount, sumOf_handlerCount, hfound, sumOf_append, sumOf_eq_zero hnothing]
    exact hload

/-- A story that starts another, sends it a message, and waits until the message is handled. -/
def sender : Template :=
  ⟨"sender", false, (∅ : Table (List Command)).insert "start"
    [.act (.start (Operand.literal (.text "worker"))),
      .act (.send (Operand.literal (.text "go")) [] false),
      .await ⟨.handlers [Operand.literal (.text "go")], {}⟩,
      .act (.log [Operand.literal (.text "done")])]⟩

/-- A story that handles the message for some time. -/
def worker : Template :=
  ⟨"worker", true, (∅ : Table (List Command)).insert "go" [.wait (Operand.literal (.int 20))]⟩

def errand : Library := ((∅ : Library).insert "sender" sender).insert "worker" worker

theorem built_errand : errand.Built := by
  have hsender : Library.add ∅ sender = .ok ((∅ : Library).insert "sender" sender) := by
    simp [Library.add, sender, Table.contains]
  have hworker : Library.add ((∅ : Library).insert "sender" sender) worker = .ok errand := by
    simp [Library.add, errand, worker, Table.contains, Table.find?_insert]
  exact .add worker (.add sender .empty hsender) hworker

/-- A host in which the sender has been started. -/
def sending : Host NoFunctions :=
  (({ library := errand, functions := ⟨⟩ } : Host NoFunctions).asOf 0).obey (.start "sender")

theorem reached_sending : sending.Reached :=
  .call (.new errand built_errand _ 0 _ defaultSteps) 0 (.start "sender")

theorem posted_sending : ∀ i ∈ sending.instances, i.posted = [] := by
  have hlength : sending.instances.all (·.posted.isEmpty) = true := by decide +kernel
  simpa [List.all_eq_true] using hlength

/-- What comes to the worker is not counted for want of a worker, and the sender is over before it
comes. -/
theorem not_foretold_sending :
    let after := ((sending.asOf 10).tick 10).1
    let found := (after.asOf 20).opened
    sending.Reached ∧ (∀ i ∈ sending.instances, i.posted = []) ∧ after.instances.length = 0 ∧
      ¬ found.handlerCount "go" ≤ Board.count after.board.handlers "go" :=
  ⟨reached_sending, posted_sending, by decide +kernel, by decide +kernel⟩

/-- The worker does not handle the message that the sender gets. -/
theorem foretold_sending :
    let after := ((sending.asOf 10).tick 10).1
    let found := (after.asOf 20).opened
    found.handlerCount "start" ≤ Board.count after.board.handlers "start" := by
  have hasked : ((sending.asOf 10).asked 10).all (fun
      | .start id => id = "worker"
      | _ => true) = true := by decide +kernel
  refine (handlerCount_foretold reached_sending posted_sending 10 10 20 "start").2 fun id t he ht => ?_
  rw [← mem_asked] at he
  have hid := List.all_eq_true.1 hasked _ he
  obtain rfl : id = "worker" := by simpa using hid
  have hworker : sending.library.find? "worker" = some worker :=
    Table.find?_insert_self ((∅ : Library).insert "sender" sender) "worker" worker
  obtain rfl := Option.some.inj (hworker.symm.trans ht)
  decide +kernel

end Host
end StoryScript
