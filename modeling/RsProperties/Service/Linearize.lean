import RsProperties.Service.Session
import RsProperties.Service.System

/-!
# The service linearizes its clients

The log of handled messages is the order in which the concurrent requests take effect: the store is at
every moment the replay of the log. The invariant ties each connection to its part of the log and of the
mailbox (`ConnInv`): a connection that has not asked has no part in either, one that waits has exactly
its message in the mailbox, and one that has a reply has exactly one log entry, with that reply.
-/

namespace RsProperties

open ByteMem Process

namespace Service

/-- The status word agrees with the reply the session got, if any. -/
def Truthful (order : ByteOrder) (asked : Option (PropertyMessage × Bool)) (status : Bytes) : Prop :=
  (status = i32Bytes order propSuccess ∧ ∃ m, asked = some (m, true)) ∨
    (status = i32Bytes order propError ∧ ∀ m, asked ≠ some (m, true))

/-- The invariant of the connection `c` with its parts of the mailbox and of the log. -/
inductive ConnInv (order : ByteOrder) (c : ℕ) (conn : Connection) :
    List (ℕ × PropertyMessage) → List Applied → Prop
  | running {p : Handler (Except Error Unit)} {v : Session} (ht : conn.task = .running p)
      (hs : Safe (sessionMonitor order conn.input) (fun _ _ => True) v p)
      (hrest : v.rest = conn.rest)
      (hinput : ∀ m b, v.asked = some (m, b) → ∃ rest, frame order conn.input = some (m, rest))
      (hrec : ∀ w ∈ conn.received, Truthful order v.asked w)
      (hans : v.answered = false → conn.received = []) :
      ConnInv order c conn [] (v.asked.map fun a => Applied.mk c a.1 a.2).toList
  | waiting {next : Except String Bool → Handler (Except Error Unit)} {v : Session}
      {m : PropertyMessage} (ht : conn.task = .waiting next)
      (hs : ∀ b, Safe (sessionMonitor order conn.input) (fun _ _ => True)
        { v with asked := some (m, b) } (next (.ok b)))
      (hrest : v.rest = conn.rest) (hinput : ∃ rest, frame order conn.input = some (m, rest))
      (hrec : conn.received = []) : ConnInv order c conn [(c, m)] []

/-- The invariant of the system started over `store`. -/
structure SystemInv (order : ByteOrder) (store : SystemProperties) (s : System) : Prop where
  conns : ∀ c conn, s.conns c = some conn → ConnInv order c conn
    (s.mailbox.filter (·.1 == c)) (s.processed.filter (·.conn == c))
  fresh : ∀ c, s.conns c = none →
    s.mailbox.filter (·.1 == c) = [] ∧ s.processed.filter (·.conn == c) = []
  store_eq : s.store = replay store s.processed
  replies : ∀ before a after, s.processed = before ++ a :: after →
    a.reply = (handle a.message (replay store before)).1

section Steps

variable {order : ByteOrder} {store : SystemProperties} {s s' : System}

theorem systemInv_start : SystemInv order store (System.start store) := by
  refine ⟨fun c conn h => ?_, fun _ _ => ⟨rfl, rfl⟩, rfl, fun before a after h => ?_⟩
  · cases h
  · exact absurd h.symm (by simp [System.start])

/-- A step of one connection that leaves mailbox, store and log alone. -/
theorem SystemInv.setConn (h : SystemInv order store s) {c : ℕ} {conn : Connection}
    (hc : ConnInv order c conn (s.mailbox.filter (·.1 == c)) (s.processed.filter (·.conn == c))) :
    SystemInv order store (s.setConn c conn) := by
  refine ⟨fun c' conn' hc' => ?_, fun c' hc' => ?_, h.store_eq, h.replies⟩
  · simp only [System.setConn, Function.update_apply] at hc' ⊢
    split_ifs at hc' with he
    · subst he
      obtain rfl := Option.some.inj hc'
      exact hc
    · exact h.conns c' conn' hc'
  · simp only [System.setConn, Function.update_apply] at hc' ⊢
    split_ifs at hc' with he
    exact h.fresh c' hc'

/-- One operation of a running connection other than `ask`: the session moves along. -/
theorem ConnInv.operate {c : ℕ} {conn conn' : Connection} {pending : List (ℕ × PropertyMessage)}
    {done : List Applied} (h : ConnInv order c conn pending done) {o : SocketOp}
    {next : o.Ans → Handler (Except Error Unit)} (ht : conn.task = .running (.perform o next))
    {r : o.Ans} (hin : conn'.input = conn.input) (ht' : conn'.task = .running (next r))
    (hstep : ∀ v : Session, v.rest = conn.rest →
      (sessionMonitor order conn.input).allows v o → (∀ w ∈ conn.received, Truthful order v.asked w) →
      (v.answered = false → conn.received = []) →
      (sessionMonitor order conn.input).admits v o r ∧
      ((sessionMonitor order conn.input).next v o r).rest = conn'.rest ∧
      ((sessionMonitor order conn.input).next v o r).asked = v.asked ∧
      (∀ w ∈ conn'.received, Truthful order v.asked w) ∧
      (((sessionMonitor order conn.input).next v o r).answered = false → conn'.received = [])) :
    ConnInv order c conn' pending done := by
  cases h with
  | waiting htw => rw [ht] at htw; cases htw
  | @running p v htr hs hrest hinput hrec hans =>
    rw [ht] at htr
    obtain rfl := Task.running.inj htr
    obtain ⟨hadm, hrest', hasked, hrec', hans'⟩ := hstep v hrest hs.1 hrec hans
    obtain ⟨-, hs'⟩ := hs.step hadm
    rw [← hasked]
    rw [← hasked] at hrec'
    exact .running ht' (hin ▸ hs') hrest' (fun m b hm => hin ▸ hinput m b (hasked ▸ hm)) hrec' hans'

/-- The step that puts a message in the mailbox. -/
theorem SystemInv.ask (h : SystemInv order store s) {c : ℕ} {conn : Connection}
    {m : PropertyMessage} {next : Except String Bool → Handler (Except Error Unit)}
    (hc : s.conns c = some conn) (ht : conn.task = .running (.perform (.ask m) next)) :
    SystemInv order store
      { s.setConn c { conn with task := .waiting next } with mailbox := s.mailbox ++ [(c, m)] } := by
  have hother : ∀ c', c' ≠ c →
      (s.mailbox ++ [(c, m)]).filter (·.1 == c') = s.mailbox.filter (·.1 == c') := by
    intro c' hne
    simp [List.filter_append, hne.symm]
  refine ⟨fun c' conn' hc' => ?_, fun c' hc' => ?_, h.store_eq, h.replies⟩
  · simp only [System.setConn, Function.update_apply] at hc' ⊢
    split_ifs at hc' with he
    · subst he
      obtain rfl := Option.some.inj hc'
      have hconn := h.conns c' conn hc
      rw [List.filter_append]
      generalize s.mailbox.filter (·.1 == c') = pending at hconn ⊢
      generalize s.processed.filter (·.conn == c') = done at hconn ⊢
      cases hconn with
      | waiting htw => rw [ht] at htw; cases htw
      | @running p v htr hs hrest hinput hrec hans =>
        rw [ht] at htr
        obtain rfl := Task.running.inj htr
        obtain ⟨⟨hasked, hanswered, hframe⟩, hnext⟩ := hs
        have hmail : [] ++ [(c', m)].filter (·.1 == c') = [(c', m)] := by simp
        rw [hmail, hasked]
        exact .waiting rfl (fun b => hnext (.ok b) ⟨b, rfl⟩) hrest hframe (hans hanswered)
    · rw [hother c' he]
      exact h.conns c' conn' hc'
  · simp only [System.setConn, Function.update_apply] at hc' ⊢
    split_ifs at hc' with he
    rw [hother c' he]
    exact h.fresh c' hc'

/-- The step that handles a pending message. -/
theorem SystemInv.process (h : SystemInv order store s) {c : ℕ} {conn : Connection}
    {m : PropertyMessage} {before after : List (ℕ × PropertyMessage)}
    {next : Except String Bool → Handler (Except Error Unit)}
    (hm : s.mailbox = before ++ (c, m) :: after) (hc : s.conns c = some conn)
    (ht : conn.task = .waiting next) :
    SystemInv order store
      { s.setConn c { conn with task := .running (next (.ok (handle m s.store).1)) } with
        mailbox := before ++ after
        store := (handle m s.store).2
        processed := s.processed ++ [⟨c, m, (handle m s.store).1⟩] } := by
  have hmail : ∀ c', c' ≠ c →
      (before ++ after).filter (·.1 == c') = s.mailbox.filter (·.1 == c') := by
    intro c' hne
    simp [hm, List.filter_append, hne.symm]
  have hlog : ∀ c' b, c' ≠ c → (s.processed ++ [Applied.mk c m b]).filter (·.conn == c') =
      s.processed.filter (·.conn == c') := by
    intro c' b hne
    simp [List.filter_append, hne.symm]
  refine ⟨fun c' conn' hc' => ?_, fun c' hc' => ?_, ?_, fun log a log' hsplit => ?_⟩
  · simp only [System.setConn, Function.update_apply] at hc' ⊢
    split_ifs at hc' with he
    · subst he
      obtain rfl := Option.some.inj hc'
      have hconn := h.conns c' conn hc
      rw [hm] at hconn
      generalize hdone : s.processed.filter (·.conn == c') = done at hconn
      generalize hpend : (before ++ (c', m) :: after).filter (·.1 == c') = pending at hconn
      cases hconn with
      | running htr => rw [ht] at htr; cases htr
      | @waiting next' v m' htw hs hrest hinput hrec =>
        rw [ht] at htw
        obtain rfl := Task.waiting.inj htw
        -- the connection has exactly one message in the mailbox, the one taken now
        obtain ⟨hb, ha, rfl⟩ : before.filter (·.1 == c') = [] ∧ after.filter (·.1 == c') = [] ∧
            m = m' := by
          rw [List.filter_append, List.filter_cons_of_pos (by simp)] at hpend
          rcases List.append_eq_singleton_iff.mp hpend with ⟨h1, h2⟩ | ⟨-, h2⟩
          · obtain ⟨h3, h4⟩ := List.cons.inj h2
            exact ⟨h1, h4, (Prod.mk.inj h3).2⟩
          · cases h2
        have hrest' : (before ++ after).filter (·.1 == c') = [] := by
          rw [List.filter_append, hb, ha]
          rfl
        have hlog' : (s.processed ++ [Applied.mk c' m (handle m s.store).1]).filter (·.conn == c') =
            [Applied.mk c' m (handle m s.store).1] := by
          rw [List.filter_append, hdone]
          simp
        rw [hrest', hlog']
        refine .running (v := { v with asked := some (m, (handle m s.store).1) }) rfl
          (hs _) hrest ?_ (fun w hw => ?_) fun _ => hrec
        · rintro m' b hb
          obtain ⟨rfl, -⟩ := Prod.mk.inj (Option.some.inj hb)
          exact hinput
        · rw [show ({ conn with task := Task.running (next (.ok (handle m s.store).1)) } :
            Connection).received = [] from hrec] at hw
          cases hw
    · rw [hmail c' he, hlog c' _ he]
      exact h.conns c' conn' hc'
  · simp only [System.setConn, Function.update_apply] at hc' ⊢
    split_ifs at hc' with he
    rw [hmail c' he, hlog c' _ he]
    exact h.fresh c' hc'
  · simp only
    rw [replay_append, ← h.store_eq]
    rfl
  · rcases List.eq_nil_or_concat log' with rfl | ⟨log'', z, rfl⟩
    · obtain ⟨rfl, ha⟩ := List.append_inj' hsplit rfl
      obtain rfl := (List.cons.inj ha).1
      rw [← h.store_eq]
    · have hsplit' : s.processed ++ [Applied.mk c m (handle m s.store).1] =
          (log ++ a :: log'') ++ [z] := hsplit.trans (by simp)
      exact h.replies log a log'' (List.append_inj' hsplit' rfl).1

/-- **The invariant survives every step.** -/
theorem SystemInv.step (h : SystemInv order store s) (hstep : Step order s s') :
    SystemInv order store s' := by
  cases hstep with
  | @accept c input hc =>
    obtain ⟨hmail, hdone⟩ := h.fresh c hc
    refine h.setConn ?_
    rw [hmail, hdone]
    exact .running (v := ⟨input, none, false⟩) rfl safe_handleClient rfl (fun m b hm => by cases hm)
      (fun w hw => by cases hw) fun _ => rfl
  | read hc ht hn =>
    refine h.setConn ((h.conns _ _ hc).operate ht rfl rfl fun v hrest _ hrec hans => ?_)
    refine ⟨fun bs hbs => ?_, by rw [← hrest]; rfl, rfl, hrec, hans⟩
    cases hbs
    exact ⟨hrest ▸ hn, by rw [hrest]⟩
  | readFails hc ht e =>
    refine h.setConn ((h.conns _ _ hc).operate ht rfl rfl fun v hrest _ hrec hans => ?_)
    exact ⟨fun bs hbs => (by cases hbs), hrest, rfl, hrec, hans⟩
  | write hc ht =>
    refine h.setConn ((h.conns _ _ hc).operate ht rfl rfl fun v hrest hallow hrec hans => ?_)
    refine ⟨trivial, hrest, rfl, fun w hw => ?_, fun ha => by cases ha⟩
    rcases List.mem_append.mp hw with hw | hw
    · exact hrec w hw
    · rw [List.mem_singleton.mp hw]
      exact hallow
  | writeFails hc ht e =>
    refine h.setConn ((h.conns _ _ hc).operate ht rfl rfl fun v hrest _ hrec hans => ?_)
    exact ⟨trivial, hrest, rfl, hrec, fun ha => by cases ha⟩
  | ask hc ht => exact h.ask hc ht
  | process hm hc ht => exact h.process hm hc ht

theorem Reaches.systemInv (h : Reaches order store s) : SystemInv order store s := by
  induction h with
  | refl => exact systemInv_start
  | tail _ hstep ih => exact ih.step hstep

end Steps

/-! ### What the clients see -/

/-- The V2 client on connection `c`, which sent `m`, has been told that it succeeded. -/
def ToldSuccess (order : ByteOrder) (s : System) (c : ℕ) (m : PropertyMessage) : Prop :=
  ∃ conn, s.conns c = some conn ∧ V2Carries m ∧ v2Frame order m <+: conn.input ∧
    i32Bytes order propSuccess ∈ conn.received

section Clients

variable {order : ByteOrder} {store : SystemProperties} {s s' : System}

theorem success_ne_error (order : ByteOrder) :
    i32Bytes order propSuccess ≠ i32Bytes order propError := by
  cases order <;> decide

theorem ConnInv.length_le {c : ℕ} {conn : Connection} {pending : List (ℕ × PropertyMessage)}
    {done : List Applied} (h : ConnInv order c conn pending done) : done.length ≤ 1 := by
  cases h with
  | @running _ v => cases v.asked <;> simp
  | waiting => simp

/-- A client is told of success only for the message its input stands for, applied once. -/
theorem ConnInv.of_success {c : ℕ} {conn : Connection} {pending : List (ℕ × PropertyMessage)}
    {done : List Applied} (h : ConnInv order c conn pending done)
    (hr : i32Bytes order propSuccess ∈ conn.received) :
    ∃ m rest, frame order conn.input = some (m, rest) ∧ done = [⟨c, m, true⟩] := by
  cases h with
  | waiting _ _ _ _ hrec =>
    rw [hrec] at hr
    cases hr
  | @running _ v _ _ _ hinput hrec =>
    rcases hrec _ hr with ⟨-, m, hm⟩ | ⟨he, -⟩
    · obtain ⟨rest, hf⟩ := hinput m true hm
      exact ⟨m, rest, hf, by rw [hm]; rfl⟩
    · exact absurd he (success_ne_error order)

/-- A client is told of an error only if its message, if it was applied at all, was refused. -/
theorem ConnInv.of_error {c : ℕ} {conn : Connection} {pending : List (ℕ × PropertyMessage)}
    {done : List Applied} (h : ConnInv order c conn pending done)
    (hr : i32Bytes order propError ∈ conn.received) : ∀ a ∈ done, a.reply = false := by
  cases h with
  | waiting _ _ _ _ hrec =>
    rw [hrec] at hr
    cases hr
  | @running _ v _ _ _ _ hrec =>
    rcases hrec _ hr with ⟨he, -⟩ | ⟨-, hne⟩
    · exact absurd he.symm (success_ne_error order)
    · intro a ha
      obtain ⟨⟨m, b⟩, hm, rfl⟩ := Option.map_eq_some_iff.mp (Option.mem_toList.mp ha)
      cases b with
      | false => rfl
      | true => exact absurd hm (hne m)

theorem SystemInv.of_toldSuccess (h : SystemInv order store s) {c : ℕ} {m : PropertyMessage}
    (ht : ToldSuccess order s c m) : s.processed.filter (·.conn == c) = [⟨c, m, true⟩] := by
  obtain ⟨conn, hc, hcarries, ⟨rest, hin⟩, hr⟩ := ht
  obtain ⟨m', rest', hf, hdone⟩ := (h.conns c conn hc).of_success hr
  have hf' : frame order conn.input = some (m, rest) :=
    frame_eq_some.mpr (.inl ⟨hcarries, hin.symm⟩)
  rw [hf'] at hf
  cases hf
  exact hdone

/-- The replay right after an applied message. -/
theorem SystemInv.replay_snoc (h : SystemInv order store s) (hs : store.AllSound)
    {before after : List Applied} {a : Applied} (hsplit : s.processed = before ++ a :: after)
    (ha : a.reply = true) :
    (replay store (before ++ [a])).value a.message.name.bytes = some a.message.value ∧
      (startsWithRo a.message.name.bytes = true →
        (replay store before).value a.message.name.bytes = none) := by
  have hrep := h.replies before a after hsplit
  rw [ha] at hrep
  rw [replay_append]
  exact handle_true (replay_allSound hs before) hrep.symm

/-- Once applied, a read-only name keeps the value in every longer replay. -/
theorem SystemInv.ro_applied (h : SystemInv order store s) (hs : store.AllSound)
    {before after : List Applied} {a : Applied} (hsplit : s.processed = before ++ a :: after)
    (ha : a.reply = true) (hro : startsWithRo a.message.name.bytes = true) (log : List Applied) :
    (replay store (before ++ a :: log)).value a.message.name.bytes = some a.message.value := by
  have hval := (h.replay_snoc hs hsplit ha).1
  rw [List.append_cons, replay_append]
  exact replay_ro (replay_allSound hs _) log hro hval

/-- Two applied messages for one read-only name are the same log entry. -/
theorem SystemInv.ro_unique (h : SystemInv order store s) (hs : store.AllSound) {a a' : Applied}
    (hmem : a ∈ s.processed) (hmem' : a' ∈ s.processed) (ha : a.reply = true)
    (ha' : a'.reply = true) (hname : a.message.name = a'.message.name)
    (hro : startsWithRo a.message.name.bytes = true) : a = a' := by
  -- the later of the two would have found a value
  have key : ∀ {b b' : Applied} {before mid after : List Applied},
      s.processed = before ++ b :: (mid ++ b' :: after) → b.reply = true → b'.reply = true →
      b.message.name = b'.message.name → startsWithRo b.message.name.bytes = true → False := by
    intro b b' before mid after hsplit hb hb' hn hr
    have hsplit' : s.processed = (before ++ b :: mid) ++ b' :: after := by simp [hsplit]
    have hnone := (h.replay_snoc hs hsplit' hb').2 (hn ▸ hr)
    rw [← hn, h.ro_applied hs hsplit hb hr mid] at hnone
    cases hnone
  obtain ⟨before, after, hsplit⟩ := List.append_of_mem hmem
  rw [hsplit] at hmem'
  rcases List.mem_append.mp hmem' with hm | hm
  · obtain ⟨before', mid, rfl⟩ := List.append_of_mem hm
    exact (key (by simpa using hsplit) ha' ha hname.symm (hname ▸ hro)).elim
  · rcases List.mem_cons.mp hm with rfl | hm
    · rfl
    · obtain ⟨mid, after', rfl⟩ := List.append_of_mem hm
      exact (key hsplit ha ha' hname hro).elim

/-- The log only grows. -/
theorem processed_mono (h : Relation.ReflTransGen (Step order) s s') :
    s.processed <+: s'.processed := by
  induction h with
  | refl => exact List.prefix_refl _
  | tail _ hstep ih =>
    refine ih.trans ?_
    cases hstep with
    | process => exact List.prefix_append _ _
    | _ => exact List.prefix_refl _

end Clients

/-- **The service linearizes its clients.** In every state of every run: the store is the replay of the
log, and each log entry has the reply of the handler at its point; a connection has at most one entry; a
V2 client told of success has exactly its message in the log, applied, and right after it the name reads
its value; a forwarded message answered with an error changed no value; at most one client is told of
success for one `ro.` name, and from then on the name reads that client's value. -/
theorem service_linearizes {info : PropertyInfoArea} {store : SystemProperties}
    {seen : List (Str × PropertyIndex)} (hstore : StoreReachable info (store, seen))
    {order : ByteOrder} {s : System} (h : Reaches order store s) :
    s.store = replay store s.processed ∧
    (∀ before a after, s.processed = before ++ a :: after →
      a.reply = (handle a.message (replay store before)).1) ∧
    (∀ c, (s.processed.filter (·.conn == c)).length ≤ 1) ∧
    (∀ c m, ToldSuccess order s c m → s.processed.filter (·.conn == c) = [⟨c, m, true⟩]) ∧
    (∀ c m before after, ToldSuccess order s c m → s.processed = before ++ ⟨c, m, true⟩ :: after →
      (replay store (before ++ [⟨c, m, true⟩])).value m.name.bytes = some m.value) ∧
    (∀ c conn before a after, s.conns c = some conn → i32Bytes order propError ∈ conn.received →
      s.processed = before ++ a :: after → a.conn = c →
      ∀ name, (replay store (before ++ [a])).value name = (replay store before).value name) ∧
    (∀ c m c' m', ToldSuccess order s c m → ToldSuccess order s c' m' → m.name = m'.name →
      startsWithRo m.name.bytes = true → c = c') ∧
    ∀ c m, ToldSuccess order s c m → startsWithRo m.name.bytes = true →
      ∀ s', Relation.ReflTransGen (Step order) s s' →
        s'.store.value m.name.bytes = some m.value := by
  have hinv := h.systemInv
  have hsound := hstore.storeInv.sound
  have hmem : ∀ c m, ToldSuccess order s c m → Applied.mk c m true ∈ s.processed := by
    intro c m ht
    have : Applied.mk c m true ∈ s.processed.filter (·.conn == c) := by
      rw [hinv.of_toldSuccess ht]
      exact List.mem_singleton_self _
    exact List.mem_of_mem_filter this
  refine ⟨hinv.store_eq, hinv.replies, fun c => ?_, fun c m ht => hinv.of_toldSuccess ht,
    fun c m before after _ hsplit => (hinv.replay_snoc hsound hsplit rfl).1,
    fun c conn before a after hc hr hsplit hac name => ?_,
    fun c m c' m' ht ht' hname hro => ?_, fun c m ht hro s' hrun => ?_⟩
  · cases hc : s.conns c with
    | none =>
      rw [(hinv.fresh c hc).2]
      simp
    | some conn => exact (hinv.conns c conn hc).length_le
  · have ha : a ∈ s.processed.filter (·.conn == c) := by
      rw [List.mem_filter, hsplit]
      exact ⟨by simp, by simp [hac]⟩
    have hfalse := (hinv.conns c conn hc).of_error hr a ha
    have hrep := hinv.replies before a after hsplit
    rw [hfalse] at hrep
    rw [replay_append]
    exact handle_false (replay_allSound hsound before) hrep.symm name
  · have := hinv.ro_unique hsound (hmem c m ht) (hmem c' m' ht') rfl rfl hname hro
    exact (Applied.mk.inj this).1
  · have hinv' : SystemInv order store s' := Reaches.systemInv (h.trans hrun)
    obtain ⟨before, after, hsplit⟩ := List.append_of_mem ((processed_mono hrun).subset (hmem c m ht))
    rw [hinv'.store_eq, hsplit]
    exact hinv'.ro_applied hsound hsplit rfl hro after

/-- A V2 request to create a read-only property. -/
def sampleMessage : PropertyMessage := ⟨⟨ascii "ro.a", by decide⟩, ⟨ascii "1", by decide⟩⟩

/-- A request of a second client for the same property. -/
def rivalMessage : PropertyMessage := ⟨⟨ascii "ro.a", by decide⟩, ⟨ascii "2", by decide⟩⟩

/-- A race: the second client asks first, but the message of the first is handled first. -/
theorem exists_toldSuccess_race {store : SystemProperties}
    (hok : (handle sampleMessage store).1 = true)
    (hlost : (handle rivalMessage (handle sampleMessage store).2).1 = false) :
    ∃ s conn, Reaches .little store s ∧ ToldSuccess .little s 0 sampleMessage ∧
      s.conns 1 = some conn ∧ conn.received = [i32Bytes .little propError] ∧
      s.processed = [⟨0, sampleMessage, true⟩, ⟨1, rivalMessage, false⟩] := by
  have h0 : Reaches .little store (System.start store) := .refl
  have h1 := h0.tail (.accept (c := 0) (v2Frame .little sampleMessage) rfl)
  have h2 := h1.tail (.accept (c := 1) (v2Frame .little rivalMessage) rfl)
  have h3 := h2.tail (.read (c := 0) (n := 4) rfl rfl (by decide))
  have h4 := h3.tail (.read (c := 1) (n := 4) rfl rfl (by decide))
  have h5 := h4.tail (.read (c := 1) (n := 4) rfl rfl (by decide))
  have h6 := h5.tail (.read (c := 0) (n := 4) rfl rfl (by decide))
  have h7 := h6.tail (.read (c := 0) (n := 4) rfl rfl (by decide))
  have h8 := h7.tail (.read (c := 1) (n := 4) rfl rfl (by decide))
  have h9 := h8.tail (.read (c := 1) (n := 4) rfl rfl (by decide))
  have h10 := h9.tail (.read (c := 1) (n := 1) rfl rfl (by decide))
  have h11 := h10.tail (.ask (c := 1) (m := rivalMessage) rfl rfl)
  have h12 := h11.tail (.read (c := 0) (n := 4) rfl rfl (by decide))
  have h13 := h12.tail (.read (c := 0) (n := 1) rfl rfl (by decide))
  have h14 := h13.tail (.ask (c := 0) (m := sampleMessage) rfl rfl)
  have h15 := h14.tail (.process (c := 0) (m := sampleMessage)
    (show _ = [(1, rivalMessage)] ++ (0, sampleMessage) :: [] from rfl) rfl rfl)
  have h16 := h15.tail (.process (c := 1) (m := rivalMessage)
    (show _ = [] ++ (1, rivalMessage) :: [] from rfl) rfl rfl)
  simp only [System.setConn, System.start, hok, hlost] at h16
  have h17 := h16.tail (.write (c := 1) rfl rfl)
  have h18 := h17.tail (.write (c := 0) rfl rfl)
  have hcarries : V2Carries sampleMessage := by constructor <;> decide
  exact ⟨_, _, h18, ⟨_, rfl, hcarries, List.prefix_refl _, List.mem_singleton_self _⟩, rfl, rfl, rfl⟩

/-- Two clients of a fresh store set the same `ro.` property: the one told of success has its value stored,
the other is told of an error. -/
theorem service_linearizes_race :
    ∃ store s conn, SystemProperties.newArea sampleInfo = .ok store ∧ Reaches .little store s ∧
      ToldSuccess .little s 0 sampleMessage ∧
      s.conns 1 = some conn ∧ i32Bytes .little propError ∈ conn.received ∧
      (∀ m, ToldSuccess .little s 1 m → m.name ≠ sampleMessage.name) ∧
      (replay store [⟨0, sampleMessage, true⟩]).value (ascii "ro.a") = some ⟨ascii "1", by decide⟩ ∧
      s.store.value (ascii "ro.a") = some ⟨ascii "1", by decide⟩ := by
  have hcheck : ((SystemProperties.newArea sampleInfo).toOption.any fun sp =>
      (handle sampleMessage sp).1 && !(handle rivalMessage (handle sampleMessage sp).2).1) = true := by
    decide +kernel
  cases hnew : SystemProperties.newArea sampleInfo with
  | error e =>
    rw [hnew] at hcheck
    cases hcheck
  | ok store =>
    rw [hnew] at hcheck
    simp only [Except.toOption, Option.any_some, Bool.and_eq_true, Bool.not_eq_true'] at hcheck
    obtain ⟨s, conn, hs, ht, hconn, hrec, hlog⟩ := exists_toldSuccess_race hcheck.1 hcheck.2
    have hreach : StoreReachable sampleInfo (store, []) := ⟨store, hnew, .refl⟩
    obtain ⟨-, -, -, -, hafter, -, hone, hro⟩ := service_linearizes hreach hs
    refine ⟨store, s, conn, rfl, hs, ht, hconn, by simp [hrec], fun m hm hname => ?_,
      hafter 0 sampleMessage [] _ ht hlog, hro 0 sampleMessage ht (by decide) s .refl⟩
    exact absurd (hone 0 _ 1 _ ht hm hname.symm (by decide)) (by decide)

end Service

end RsProperties
