import StoryScript.Proofs.Flow
import StoryScript.Proofs.Frame
import StoryScript.Proofs.Reading

/-! A repetition a number of times is its body written out as many times. Where no operand of the
body reads the item of its round, the two cannot be told apart by what they do in any tick. -/
namespace StoryScript

/-- A block written out a number of times. -/
def Command.copies (n : Nat) (block : List Command) : List Command := (List.replicate n block).flatten

open Command (copies)

theorem Command.copies_succ (n : Nat) (block : List Command) :
    copies (n + 1) block = block ++ copies n block := by
  simp [copies, List.replicate_succ]

/-! ### Waits that read the same -/

@[simp] theorem Waiting.command_run {ω : Type} [World ω] (w : Waiting) (now delta : Int)
    (read : Operand → Value) (s : Stage ω) : (w.run now delta read s).2.1.command = w.command := by
  cases w <;> rfl

theorem Waiting.run_congr {ω : Type} [World ω] {w : Waiting} {f g : Operand → Value}
    (h : ∀ o ∈ w.command.operands, f o = g o) (now delta : Int) (s : Stage ω) :
    w.run now delta f s = w.run now delta g s := by
  cases w with
  | time limit elapsed =>
    have hl : f limit = g limit := h limit (by simp [command, Command.operands])
    simp only [run, hl]
  | goal wait watch =>
    have hw : wait.map f = wait.map g := Await.map_congr h
    simp only [run, hw]

theorem Loop.ofRange_congr {range : Range Operand} {f g : Operand → Value}
    (h : ∀ o ∈ range.operands, f o = g o) (body : List Command) :
    ofRange range body f = ofRange range body g := by
  rw [ofRange, ofRange, Range.map_congr h]

theorem Command.waiting_operands {c : Command} {w : Waiting} (h : c.waiting? = some w)
    (hc : c.IgnoresItem) : w.command.IgnoresItem := by
  rwa [Command.command_of_waiting? h]

namespace Queue

/-! ### Blocks beside each other -/

section
variable (range : Range Operand) (n : Nat) (body rest : List Command)

/-- The commands that a block with a repetition has yet to begin, and the repetition if it is under
way, beside the commands of the block in which the repetition is written out. -/
inductive Spelled : List Command → List Loop → List Command → Prop
  | before (pre : List Command) :
      Spelled (pre ++ .repeat range body :: rest) [] (pre ++ (copies n body ++ rest))
  | inside (l : Loop) (hbody : l.body = body) (hrest : ∀ c ∈ l.rest, c.IgnoresItem) :
      Spelled rest [l] (l.rest ++ (copies l.left.toList.length body ++ rest))
  | after (r : List Command) : Spelled r [] r

/-- A block with a repetition, and one in which it is written out, that are equally far. A command
of the repeated body that waits reads the same in both. -/
inductive Beside : Queue → Queue → Prop
  | mk {R F : List Command} {base : List Loop} (ls : List Loop) {w : Option Waiting} {d d' : Bool}
      (h : Spelled range n body rest R base F)
      (hw : base ≠ [] → ls = [] → ∀ v ∈ w, v.command.IgnoresItem) :
      Beside ⟨R, ls ++ base, w, d⟩ ⟨F, ls, w, d'⟩

/-- What comes next in a block with a repetition, beside what comes next in the other. Where the
repetition is begun, or goes on to another round, nothing comes in the other that has the commands
`F` left to do. -/
inductive Abreast (F : List Command) : Next → Queue × Next → Prop
  | nothing (q : Queue) : Abreast F .nothing (q, .nothing)
  | command {c : Command} {R F' : List Command} {base : List Loop} (ls : List Loop) (q : Queue)
      (h : Spelled range n body rest R base F') (hc : base ≠ [] → ls = [] → c.IgnoresItem) :
      Abreast F (.command c { rest := R, loops := ls ++ base })
        (q, .command c { rest := F', loops := ls })
  | round {q' q'' : Queue} (v : Value) (q : Queue) (h : Beside range n body rest q' q'') :
      Abreast F (.round v q') (q, .round v q'')
  | begins (hF : F = copies n body ++ rest) :
      Abreast F (.command (.repeat range body) { rest }) (settle F []).2
  | again {q' : Queue} (v : Value) (h : Beside range n body rest q' { rest := F }) :
      Abreast F (.round v q') (settle F []).2

variable {range n body rest}

theorem spelled_ofRange {read : Operand → Value} (h : (range.map read).items.toList.length = n) :
    Spelled range n body rest rest [.ofRange range body read] (copies n body ++ rest) := by
  subst h
  exact .inside (.ofRange range body read) rfl (by simp [Loop.ofRange])

theorem abreast_self (r : List Command) :
    Abreast range n body rest r (settle r []).2.2 (settle r []).2 := by
  cases r with
  | nil => exact .nothing _
  | cons _ r => exact .command [] _ (.after r) (by simp)

theorem settle_abreast (hbody : ∀ c ∈ body, c.IgnoresItem) {R F : List Command} {base : List Loop}
    (h : Spelled range n body rest R base F) (ls : List Loop) :
    Abreast range n body rest F (settle R (ls ++ base)).2.2 (settle F ls).2 := by
  induction ls with
  | nil =>
    cases h with
    | before pre =>
      cases pre with
      | nil => exact .begins rfl
      | cons c pre => exact .command [] _ (.before pre) (by simp)
    | after => exact abreast_self R
    | inside l hl hrest =>
      obtain ⟨lrange, lbody, left, item, lrest⟩ := l
      obtain rfl : lbody = body := hl
      cases lrest with
      | cons c r =>
        obtain ⟨hc, hr⟩ := List.forall_mem_cons.1 hrest
        exact .command [] _ (.inside ⟨lrange, lbody, left, item, r⟩ rfl hr) fun _ _ => hc
      | nil =>
        cases hn : left.next? with
        | none =>
          -- The repetition is over, and nothing of it is left in the other block.
          have hleft : left.toList = [] := Items.toList_of_next?_eq_none hn
          simpa [settle, hn, hleft, copies] using abreast_self rest
        | some next =>
          obtain ⟨v, left'⟩ := next
          have hleft : left.toList = v :: left'.toList := Items.toList_of_next?_eq_some hn
          have hF : copies left.toList.length lbody ++ rest =
              lbody ++ (copies left'.toList.length lbody ++ rest) := by
            rw [hleft, List.length_cons, Command.copies_succ, List.append_assoc]
          have hnext : (settle rest ([] ++ [⟨lrange, lbody, left, item, []⟩])).2.2 =
              .round v { rest, loops := [⟨lrange, lbody, left', v, lbody⟩] } := by
            simp [settle, hn]
          rw [hnext]
          simp only [List.nil_append, hF]
          exact .again v (.mk [] (.inside ⟨lrange, lbody, left', v, lbody⟩ rfl hbody) (by simp))
  | cons k ls ih =>
    rw [List.cons_append, settle, settle]
    split
    · exact .command (_ :: ls) _ h (by simp)
    · split
      · exact .round _ _ (.mk (_ :: ls) h (by simp))
      · exact ih

end

/-! ### Flows beside each other -/

variable {ω : Type} [World ω] {m : Moment}

theorem flows_of_settle {q q' : Queue} {s : Stage ω} {r : Stretch ω} (hw : q.waiting = none)
    (hw' : q'.waiting = none) (hs : (settle q.rest q.loops).2 = (settle q'.rest q'.loops).2)
    (h : Flows m q' s r) : Flows m q s r := by
  cases h with
  | pending hp | stops hp | met hp => simp [hw'] at hp
  | done _ hs' => exact .done hw (hs.trans hs')
  | round _ hs' ht => exact .round hw (hs.trans hs') ht
  | acts _ hs' hr hc ht => exact .acts hw (hs.trans hs') hr hc ht
  | ends _ hs' hr hc => exact .ends hw (hs.trans hs') hr hc
  | waits _ hs' hc ht => exact .waits hw (hs.trans hs') hc ht
  | repeats _ hs' ht => exact .repeats hw (hs.trans hs') ht

omit [World ω] in
/-- Above the same repetitions the same item is read. Right in the body of the one that is written
out, none is. -/
theorem read_beside {R F : List Command} {base ls : List Loop} {w w' : Option Waiting} {d d' : Bool}
    {os : List Operand}
    (h : base ≠ [] → ls = [] → ∀ o ∈ os, Reference.iterator ∉ o.references) (s : Stage ω) :
    ∀ o ∈ os, read ⟨R, ls ++ base, w, d⟩ m s o = read ⟨F, ls, w', d'⟩ m s o := by
  intro o ho
  cases ls with
  | cons l ls => rfl
  | nil =>
    cases base with
    | nil => rfl
    | cons l base => exact Operand.read_of_iterator_notMem (h (by simp) rfl o ho) _ _ _ _

variable {range : Range Operand} {n : Nat} {body rest : List Command}

/-- What agrees of what two blocks come to that are beside each other. -/
structure Agrees (range : Range Operand) (n : Nat) (body rest : List Command)
    (r r' : Stretch ω) : Prop where
  stage : r'.stage = r.stage
  effects : r'.effects = r.effects
  queue : Beside range n body rest r.queue r'.queue

omit [World ω] in
theorem Agrees.after {r r' : Stretch ω} (h : Agrees range n body rest r r') (fx : List Effect) :
    Agrees range n body rest (r.after fx) (r'.after fx) :=
  ⟨h.stage, by simp only [Stretch.after, h.effects], h.queue⟩

/-- A block comes to the same as one that it is beside. -/
theorem flows_beside (hbody : ∀ c ∈ body, c.IgnoresItem)
    (hn : ∀ (q : Queue) (s : Stage ω), (range.map (q.read m s)).items.toList.length = n)
    {q q' : Queue} {s : Stage ω} {r : Stretch ω} (h : Flows m q s r)
    (hq : Beside range n body rest q q') :
    ∃ r', Flows m q' s r' ∧ Agrees range n body rest r r' := by
  have habreast {R F : List Command} {base ls : List Loop} {q : Queue} {next : Next}
      (h : Spelled range n body rest R base F) (hs : (settle R (ls ++ base)).2 = (q, next)) :
      Abreast range n body rest F next (settle F ls).2 := by
    have ha := settle_abreast hbody h ls
    rwa [hs] at ha
  induction h generalizing q' with
  | @pending _ s s' w w' fx hw hr =>
    obtain @⟨R, F, base, ls, _, d, d', hspell, hwait⟩ := hq
    obtain rfl := hw
    have hw' := Waiting.command_run w m.now m.delta (read ⟨R, ls ++ base, some w, d⟩ m s) s
    rw [hr] at hw'
    rw [Waiting.run_congr (read_beside (fun hb hl => hwait hb hl w rfl) s)] at hr
    refine ⟨_, .pending rfl hr, rfl, rfl, .mk _ hspell fun hb hl v hv => ?_⟩
    obtain rfl : w' = v := by simpa using hv
    rw [hw']
    exact hwait hb hl w rfl
  | stops hw hr hc =>
    obtain ⟨_, hspell, hwait⟩ := hq
    obtain rfl := hw
    rw [Waiting.run_congr (read_beside (fun hb hl => hwait hb hl _ rfl) _)] at hr
    exact ⟨_, .stops rfl hr hc, rfl, rfl, .mk _ hspell (by simp)⟩
  | met hw hr hc ht ih =>
    obtain ⟨_, hspell, hwait⟩ := hq
    obtain rfl := hw
    rw [Waiting.run_congr (read_beside (fun hb hl => hwait hb hl _ rfl) _)] at hr
    obtain ⟨r', hr', ha⟩ := ih (.mk _ hspell (by simp))
    exact ⟨_, .met rfl hr hc hr', ha.after _⟩
  | done hw hs =>
    obtain @⟨R, F, base, ls, _, d, d', hspell, -⟩ := hq
    obtain rfl := hw
    have ha := habreast hspell hs
    generalize hF : (settle F ls).2 = p at ha
    cases ha
    obtain rfl := settle_nothing (Prod.ext rfl hs)
    obtain rfl := settle_nothing (Prod.ext rfl hF)
    exact ⟨_, .done rfl hF, rfl, rfl, .mk [] (.after []) (by simp)⟩
  | round hw hs ht ih =>
    obtain @⟨R, F, base, ls, _, d, d', hspell, -⟩ := hq
    obtain rfl := hw
    have ha := habreast hspell hs
    generalize hF : (settle F ls).2 = p at ha
    cases ha with
    | round _ _ h =>
      obtain ⟨r', hr', ha⟩ := ih h
      exact ⟨r', .round rfl hF hr', ha⟩
    | again _ h =>
      obtain ⟨r', hr', ha⟩ := ih h
      exact ⟨r', flows_of_settle rfl rfl hF hr', ha⟩
  | acts hw hs hr hc ht ih =>
    obtain @⟨R, F, base, ls, _, d, d', hspell, -⟩ := hq
    obtain rfl := hw
    have ha := habreast hspell hs
    generalize hF : (settle F ls).2 = p at ha
    cases ha with
    | command ls' _ hspell' hitem =>
      rw [Action.map_congr (read_beside hitem _)] at hr
      obtain ⟨r', hr', ha⟩ := ih (.mk _ hspell' (by simp))
      exact ⟨_, .acts rfl hF hr hc hr', ha.after _⟩
  | ends hw hs hr hc =>
    obtain @⟨R, F, base, ls, _, d, d', hspell, -⟩ := hq
    obtain rfl := hw
    have ha := habreast hspell hs
    generalize hF : (settle F ls).2 = p at ha
    cases ha with
    | command ls' _ hspell' hitem =>
      rw [Action.map_congr (read_beside hitem _)] at hr
      exact ⟨_, .ends rfl hF hr hc, rfl, rfl, .mk _ hspell' (by simp)⟩
  | waits hw hs hc ht ih =>
    obtain @⟨R, F, base, ls, _, d, d', hspell, -⟩ := hq
    obtain rfl := hw
    have ha := habreast hspell hs
    generalize hF : (settle F ls).2 = p at ha
    cases ha with
    | command ls' _ hspell' hitem =>
      obtain ⟨r', hr', ha⟩ := ih (.mk ls' hspell' fun hb hl v hv => by
        obtain rfl := Option.mem_some_iff.1 hv
        exact Command.waiting_operands hc (hitem hb hl))
      exact ⟨r', .waits rfl hF hc hr', ha⟩
    | begins => cases hc
  | @repeats q q₁ q₂ s range' body' r hw hs ht ih =>
    obtain @⟨R, F, base, ls, _, d, d', hspell, -⟩ := hq
    obtain rfl := hw
    have ha := habreast hspell hs
    generalize hF : (settle F ls).2 = p at ha
    cases ha with
    | command ls' _ hspell' hitem =>
      obtain ⟨r', hr', ha⟩ := ih (.mk (_ :: ls') hspell' (by simp))
      rw [Loop.ofRange_congr (read_beside hitem s)] at hr'
      exact ⟨r', .repeats rfl hF hr', ha⟩
    | begins hcopies =>
      have hspell' := hcopies ▸ spelled_ofRange (hn { rest } s)
      obtain ⟨r', hr', ha⟩ := @ih { rest := F } (.mk [] hspell' (by simp))
      exact ⟨r', flows_of_settle rfl rfl hF hr', ha⟩

/-! ### Ticks beside each other -/

omit [World ω] in
theorem Beside.deferred {q q' : Queue} (h : Beside range n body rest q q') (d d' : Bool) :
    Beside range n body rest { q with deferred := d } { q' with deferred := d' } := by
  obtain ⟨ls, hspell, hwait⟩ := h
  exact .mk ls hspell hwait

theorem tick_beside (hbody : ∀ c ∈ body, c.IgnoresItem)
    (hn : ∀ (q : Queue) (s : Stage ω), (range.map (q.read m s)).items.toList.length = n)
    {q q' : Queue} {s : Stage ω} {k : Nat} (hq : Beside range n body rest q q')
    (h : q.Lasts m k s) (h' : q'.Lasts m k s) :
    (q'.tick m k s).stage = (q.tick m k s).stage ∧
      effectsOf (q'.tick m k s).events = effectsOf (q.tick m k s).events ∧
      Beside range n body rest (q.tick m k s).queue (q'.tick m k s).queue := by
  obtain ⟨r', hr', hstage, heffects, hqueue⟩ :=
    flows_beside hbody hn (flows_of_lasts h) (hq.deferred false false)
  obtain rfl := hr'.unique (flows_of_lasts h')
  exact ⟨hstage, heffects, hqueue⟩

/-- A tick to come, and what has become of the stage by then. -/
structure Visit (ω : Type) where
  onStage : Stage ω → Stage ω
  pulse : Pulse

section
variable (iterator : Value) (args : List Value)

def Visit.moment {ω : Type} (v : Visit ω) : Moment := ⟨v.pulse.now, v.pulse.delta, iterator, args⟩

/-- A tick of a block on the stage that is left by the one before. -/
def visit (q : Queue) (s : Stage ω) (v : Visit ω) : Tick ω :=
  q.tick (v.moment iterator args) v.pulse.steps (v.onStage s)

instance (q : Queue) (m : Moment) (n : Nat) (s : Stage ω) : Decidable (q.Lasts m n s) :=
  inferInstanceAs (Decidable (0 < _))

/-- What is seen of a block in each of some ticks, and what each of them leaves. -/
def follow (q : Queue) (s : Stage ω) : List (Visit ω) → List (List Effect × Stage ω)
  | [] => []
  | v :: vs =>
    let t := q.visit iterator args s v
    (effectsOf t.events, t.stage) :: follow t.queue t.stage vs

/-- Whether none of some ticks is short of steps. -/
def LastsThrough (q : Queue) (s : Stage ω) : List (Visit ω) → Prop
  | [] => True
  | v :: vs =>
    q.Lasts (v.moment iterator args) v.pulse.steps (v.onStage s) ∧
      LastsThrough (q.visit iterator args s v).queue (q.visit iterator args s v).stage vs

instance decidableLastsThrough (q : Queue) (s : Stage ω) :
    (vs : List (Visit ω)) → Decidable (q.LastsThrough iterator args s vs)
  | [] => isTrue trivial
  | v :: vs =>
    have := decidableLastsThrough (q.visit iterator args s v).queue
      (q.visit iterator args s v).stage vs
    inferInstanceAs (Decidable (_ ∧ _))

theorem follow_beside (hbody : ∀ c ∈ body, c.IgnoresItem)
    (hn : ∀ (m : Moment) (q : Queue) (s : Stage ω),
      (range.map (q.read m s)).items.toList.length = n)
    {q q' : Queue} {s : Stage ω} {vs : List (Visit ω)} (hq : Beside range n body rest q q')
    (h : q.LastsThrough iterator args s vs) (h' : q'.LastsThrough iterator args s vs) :
    q'.follow iterator args s vs = q.follow iterator args s vs := by
  induction vs generalizing q q' s with
  | nil => rfl
  | cons v vs ih =>
    obtain ⟨hl, hls⟩ := h
    obtain ⟨hl', hls'⟩ := h'
    obtain ⟨hstage, heffects, hqueue⟩ := tick_beside hbody (hn _) hq hl hl'
    rw [show (q'.visit iterator args s v).stage = (q.visit iterator args s v).stage from hstage]
      at hls'
    have hrest := ih hqueue hls hls'
    simp only [follow, visit] at hrest ⊢
    rw [hstage, heffects, hrest]

end

/-! ### Repetitions as they are written -/

end Queue

theorem Command.result_ofBlock_append (voc : Vocabulary) (l r : List Node) :
    (ofBlock voc (l ++ r)).result = (ofBlock voc l).result ++ (ofBlock voc r).result := by
  induction l with
  | nil => rfl
  | cons n l ih => simp [ofBlock, ih]

theorem Command.result_ofBlock_copies (voc : Vocabulary) (n : Nat) (block : List Node) :
    (ofBlock voc (List.replicate n block).flatten).result = copies n (ofBlock voc block).result := by
  induction n with
  | zero => rfl
  | succ n ih =>
    rw [List.replicate_succ, List.flatten_cons, result_ofBlock_append, ih, copies_succ]

/-- A repetition a number of times as it is written: a word for it, a literal number, and a body. -/
structure Clause.Loops (voc : Vocabulary) (c : Clause) (n : Nat) (body : List Node) : Prop where
  verb : voc.verbs.find? c.call.id = some .loop
  count : ∃ node r v, c.call.params = node :: r ∧
    Source.ofNode voc.functions node = .ok (.literal v) ∧ v.toInt.toInt.toNat = n
  hasBody : c.hasBody = true
  body : c.body = body

theorem Clause.Loops.result_ofNode {voc : Vocabulary} {c : Clause} {n : Nat} {body : List Node}
    (h : c.Loops voc n body) {node : Node}
    (hnode : node = .function c ∨ ∃ span, node = .statement [c] span) :
    ∃ v, v.toInt.toInt.toNat = n ∧ (Command.ofNode voc node).result =
      some (.repeat (.times (Operand.literal v)) (Command.ofBlock voc body).result) := by
  obtain ⟨call, body, hasBody⟩ := c
  obtain ⟨hverb, ⟨node', r, v, hparams, hsource, hv⟩, hasBody, rfl⟩ := h
  refine ⟨v, hv, ?_⟩
  simp only at hverb hparams
  have hcount : (call.requiring 1 none (call.operand voc.functions 0)).result =
      Operand.literal v := by
    simp [Call.requiring, Call.operand, Call.bindNode, hparams, hsource, Operand.literal]
  rcases hnode with rfl | ⟨span, rfl⟩
  · simp [Command.ofNode, Command.ofName, hverb, Verb.load, Verb.takesBody, Verb.loadCall, hcount]
  · simp [Command.ofNode, Command.ofName, hverb, Verb.load, Verb.takesBody, Verb.loadCall, hcount,
      Command.loadClauses]

/-- A block in which a repetition stands, and the one in which its body is written out as many times,
do the same in every tick that is not short of steps, whatever becomes of the stage between the
ticks. -/
theorem Queue.follow_unrolled {ω : Type} [World ω] {voc : Vocabulary} {pre body rest : List Node}
    {n : Nat} {c : Clause} {node : Node} (hc : c.Loops voc n body)
    (hnode : node = .function c ∨ ∃ span, node = .statement [c] span)
    (hbody : ∀ d ∈ (Command.ofBlock voc body).result, d.IgnoresItem) (iterator : Value)
    (args : List Value) (s : Stage ω) (vs : List (Visit ω)) :
    let looped := ofBlock (Command.ofBlock voc (pre ++ node :: rest)).result
    let unrolled :=
      ofBlock (Command.ofBlock voc (pre ++ ((List.replicate n body).flatten ++ rest))).result
    looped.LastsThrough iterator args s vs → unrolled.LastsThrough iterator args s vs →
      unrolled.follow iterator args s vs = looped.follow iterator args s vs := by
  intro looped unrolled h h'
  obtain ⟨v, hv, hloop⟩ := hc.result_ofNode hnode
  have hbeside : Beside (.times (Operand.literal v)) n (Command.ofBlock voc body).result
      (Command.ofBlock voc rest).result looped unrolled := by
    have hspell : Spelled (.times (Operand.literal v)) n (Command.ofBlock voc body).result
        (Command.ofBlock voc rest).result _ [] _ := .before (Command.ofBlock voc pre).result
    simp only [looped, unrolled, ofBlock, Command.result_ofBlock_append,
      Command.result_ofBlock_copies, Command.ofBlock, Reported.result_bind, Reported.result_pure,
      hloop]
    exact .mk [] hspell (by simp)
  refine follow_beside iterator args hbody (fun m q s => ?_) hbeside h h'
  simp [Range.map, Range.items, Items.toList, read, Operand.literal, Source.resolve, hv]

namespace Queue

/-- A command with one number. -/
def spoken (id number : String) : Node :=
  .call ⟨id, [.value ⟨number, .number, .synthetic⟩], .synthetic⟩

/-- A repetition that goes twice through two items and then waits for some time. -/
def rounds : Clause where
  call := ⟨"loop", [.value ⟨"2", .number, .synthetic⟩], .synthetic⟩
  body := [
    .function ⟨⟨"foreach", [.value ⟨"a", .identifier, .synthetic⟩,
        .value ⟨"b", .identifier, .synthetic⟩], .synthetic⟩,
      [.call ⟨"log", [.value ⟨"$$", .identifier, .synthetic⟩], .synthetic⟩, spoken "wait" "2"], true⟩,
    spoken "wait" "3"]
  hasBody := true

theorem loops_rounds : rounds.Loops .builtin 2 rounds.body where
  verb := by decide +kernel
  count := ⟨.value ⟨"2", .number, .synthetic⟩, [], .int 2, rfl, rfl, by decide⟩
  hasBody := rfl
  body := rfl

/-- The line that an effect logs, if it logs one. -/
def line? : Effect → Option String
  | .said line => some line
  | _ => none

/-- Ten ticks of two units of time, with steps to spare. Both rounds log their two items in them, one
a tick, and what stands behind the repetition comes after them. -/
theorem follow_rounds :
    let pre := [spoken "log" "0"]
    let rest := [spoken "log" "9"]
    let s : Stage (Surroundings NoFunctions) := ⟨∅, {}, ⟨⟩⟩
    let vs : List (Visit (Surroundings NoFunctions)) := List.replicate 10 ⟨id, ⟨0, 2, 50⟩⟩
    let looped := ofBlock (Command.ofBlock .builtin (pre ++ .function rounds :: rest)).result
    let unrolled := ofBlock
      (Command.ofBlock .builtin (pre ++ ((List.replicate 2 rounds.body).flatten ++ rest))).result
    (looped.LastsThrough .absent [] s vs ∧ unrolled.LastsThrough .absent [] s vs) ∧
      (looped.follow .absent [] s vs).map (fun t => t.1.filterMap line?) =
        [["0", "a"], ["b"], [], [], ["a"], ["b"], [], [], ["9"], []] ∧
      unrolled.follow .absent [] s vs = looped.follow .absent [] s vs := by
  intro pre rest s vs looped unrolled
  have h : looped.LastsThrough .absent [] s vs := by decide +kernel
  have h' : unrolled.LastsThrough .absent [] s vs := by decide +kernel
  exact ⟨⟨h, h'⟩, by decide +kernel,
    follow_unrolled loops_rounds (.inl rfl) (by decide +kernel) .absent [] s vs h h'⟩

end Queue
end StoryScript
