import DirtyCode.ConfSrv.Server

/-!
What a client knows of its file. `reply_conf` takes the timestamp after the
content, so a remembered timestamp speaks for the content that was sent only if
the file did not change between the two.
-/

namespace DirtyCode.ConfSrv

open Lib

def WorkerPc.between : WorkerPc → Option ConfPath
  | .acceptStat opened => some opened
  | .stat opened => some opened
  | _ => none

/-- No update hits a file between the two parts of a `reply_conf` on it. -/
def Quiet (server : Server) : Action → Prop
  | .update path _ _ => server.worker.between ≠ some path
  | _ => True

instance (server : Server) (action : Action) : Decidable (Quiet server action) :=
  match action with
  | .update path _ _ => inferInstanceAs (Decidable (server.worker.between ≠ some path))
  | .read _ | .stat | .store | .scan _ | .wake | .disarm _ | .close =>
      inferInstanceAs (Decidable True)

/-- A timestamp that vouches for the bytes sent. -/
structure Known (server : Server) (ts : Int) : Prop where
  past : ts ≤ server.clock
  current : ∀ path file, openConf server.files server.session.ip = some (path, file) →
    ts ≤ file.ctime ∧ (ts = file.ctime → server.sent = replyBytes file.content)

/-- The file that was read is unchanged, and the current one unless that is newer. -/
structure Opened (server : Server) (opened : ConfPath) (file : ConfFile) : Prop where
  unchanged : server.files opened = some file
  sent : server.sent = replyBytes file.content
  past : file.ctime ≤ server.clock
  current : ∀ path other, openConf server.files server.session.ip = some (path, other) →
    path = opened ∨ file.ctime < other.ctime

structure Fresh (server : Server) : Prop where
  dated : Dated server.files server.clock
  known : server.worker.registered = true → Known server server.session.confTs
  stored : ∀ fts, server.worker = .store fts → Known server fts
  opened : ∀ opened, server.worker.between = some opened → ∃ file, Opened server opened file

theorem openConf_path {files : Files} {ipv4 : BitVec 32} {path : ConfPath} {file : ConfFile}
    (found : openConf files ipv4 = some (path, file)) : files path = some file := by
  simp only [openConf] at found
  split at found
  · rename_i file host
    simp only [Option.some.injEq, Prod.mk.injEq] at found
    rw [← found.1, ← found.2]
    exact host
  · split at found
    · rename_i file net
      simp only [Option.some.injEq, Prod.mk.injEq] at found
      rw [← found.1, ← found.2]
      exact net
    · contradiction

theorem openConf_update {files : Files} {ipv4 : BitVec 32} {path updated : ConfPath}
    {file new : ConfFile}
    (found : openConf (Function.update files updated (some new)) ipv4 = some (path, file)) :
    file = new ∨ path ≠ updated ∧ openConf files ipv4 = some (path, file) := by
  by_cases same : path = updated
  · have stored := openConf_path found
    rw [same, Function.update_self, Option.some.injEq] at stored
    exact .inl stored.symm
  · refine .inr ⟨same, ?_⟩
    simp only [openConf] at found ⊢
    by_cases host : hostConf ipv4 = updated
    · rw [host, Function.update_self] at found
      simp only [Option.some.injEq, Prod.mk.injEq] at found
      exact absurd found.1.symm same
    · rw [Function.update_of_ne host] at found
      cases present : files (hostConf ipv4) with
      | some other => simpa only [present] using found
      | none =>
          simp only [present] at found ⊢
          by_cases net : netConf ipv4 = updated
          · rw [net, Function.update_self] at found
            simp only [Option.some.injEq, Prod.mk.injEq] at found
            exact absurd found.1.symm same
          · rwa [Function.update_of_ne net] at found

theorem Dated.ts {files : Files} {clock : Nat} (dated : Dated files clock) {path : ConfPath}
    {file : ConfFile} (found : files path = some file) : file.ts = file.ctime := by
  have past := dated.2 path file found
  have bound := dated.1
  exact toInt32_of_range (by omega) (by omega)

section

variable {server : Server} {updated : ConfPath} {content : List UInt8} {ctime : Nat}

def updatedServer (server : Server) (updated : ConfPath) (content : List UInt8) (ctime : Nat) :
    Server :=
  { server with
    files := Function.update server.files updated (some { content := content, ctime := ctime })
    clock := ctime }

theorem Known.update {ts : Int} (known : Known server ts) (later : server.clock < ctime) :
    Known (updatedServer server updated content ctime) ts := by
  have past := known.past
  refine ⟨by simp only [updatedServer]; omega, fun path file found => ?_⟩
  obtain rfl | ⟨_, before⟩ := openConf_update found
  · exact ⟨by dsimp only; omega, fun same => by dsimp only at same; omega⟩
  · exact known.current path file before

theorem Opened.update {opened : ConfPath} {file : ConfFile} (held : Opened server opened file)
    (other : opened ≠ updated) (later : server.clock < ctime) :
    Opened (updatedServer server updated content ctime) opened file := by
  have past := held.past
  refine ⟨?_, held.sent, by simp only [updatedServer]; omega, fun path file found => ?_⟩
  · simp only [updatedServer]
    rw [Function.update_of_ne other]
    exact held.unchanged
  · obtain rfl | ⟨_, before⟩ := openConf_update found
    · exact .inr (by dsimp only; omega)
    · exact held.current path file before

theorem Fresh.update (fresh : Fresh server) (quiet : server.worker.between ≠ some updated)
    (later : server.clock < ctime) (bounded : ctime < 2147483648) :
    Fresh (updatedServer server updated content ctime) := by
  refine ⟨⟨bounded, fun path file found => ?_⟩, fun registered => (fresh.known registered).update
    later, fun fts store => (fresh.stored fts store).update later, fun opened between => ?_⟩
  · simp only [updatedServer] at found ⊢
    by_cases same : path = updated
    · rw [same, Function.update_self, Option.some.injEq] at found
      rw [← found]
    · rw [Function.update_of_ne same] at found
      have past := fresh.dated.2 path file found
      omega
  · obtain ⟨file, held⟩ := fresh.opened opened between
    exact ⟨file, held.update (fun same => quiet (same ▸ between)) later⟩

theorem opened_read {opened : ConfPath} {file : ConfFile} {bytes : List UInt8}
    (dated : Dated server.files server.clock) (worker : WorkerPc)
    (found : openConf server.files server.session.ip = some (opened, file))
    (reply : replyBytes file.content = some bytes) :
    Opened { server with sent := some bytes, worker := worker } opened file := by
  have stored := openConf_path found
  refine ⟨stored, reply.symm, dated.2 opened file stored, fun path other current => .inl ?_⟩
  simp only [found, Option.some.injEq, Prod.mk.injEq] at current
  exact current.1.symm

theorem Opened.known {opened : ConfPath} {file : ConfFile} (held : Opened server opened file)
    (dated : Dated server.files server.clock) : Known server (statConf opened server) := by
  have ts : statConf opened server = file.ctime := by
    simp only [statConf, held.unchanged]
    exact dated.ts held.unchanged
  have past := held.past
  rw [ts]
  refine ⟨by omega, fun path other found => ?_⟩
  obtain rfl | newer := held.current path other found
  · have same := openConf_path found
    rw [held.unchanged, Option.some.injEq] at same
    subst same
    exact ⟨le_refl _, fun _ => held.sent⟩
  · exact ⟨by omega, fun same => by omega⟩

end

theorem fresh_start {files : Files} {clock : Nat} (dated : Dated files clock) (ip : BitVec 32) :
    Fresh (startServer files clock ip) :=
  ⟨dated, fun registered => by simp [startServer, WorkerPc.registered] at registered,
    fun fts store => by simp [startServer] at store,
    fun opened between => by simp [startServer, WorkerPc.between] at between⟩

theorem Fresh.move {server : Server} (fresh : Fresh server) (session : Session)
    (interest : BitVec 32) {worker : WorkerPc} (known : Known server session.confTs)
    (ip : session.ip = server.session.ip) (between : worker.between = none)
    (unstored : ∀ fts, worker ≠ .store fts) :
    Fresh { server with session := session, interest := interest, worker := worker } := by
  refine ⟨fresh.dated, fun _ => ⟨known.past, fun path file found => ?_⟩,
    fun fts store => absurd store (unstored fts), fun opened stopped => ?_⟩
  · exact known.current path file (ip ▸ found)
  · simp [between] at stopped

theorem Fresh.rearm {server : Server} (fresh : Fresh server) (epollOk needReply : Bool) :
    Fresh (armOut epollOk
      { server with session := { server.session with needReply := needReply } }) := by
  obtain ⟨dated, known, stored, opened⟩ := fresh
  cases epollOk
  all_goals
    refine ⟨dated, fun registered => ?_, fun fts store => ?_, fun path between => ?_⟩
    · have now := known registered
      exact ⟨now.past, now.current⟩
    · have now := stored fts store
      exact ⟨now.past, now.current⟩
    · obtain ⟨file, held⟩ := opened path between
      exact ⟨file, held.unchanged, held.sent, held.past, held.current⟩

theorem fresh_step {server after : Server} {action : Action} (fresh : Fresh server)
    (quiet : Quiet server action) (stepped : Stepped server action after) : Fresh after := by
  have ⟨dated, known, stored, opened⟩ := fresh
  cases stepped with
  | update later bounded => exact fresh.update quiet later bounded
  | close _ =>
      exact ⟨dated, fun registered => by simp [WorkerPc.registered] at registered,
        fun fts store => by simp at store,
        fun opened between => by simp [WorkerPc.between] at between⟩
  | accepted _ found reply =>
      refine ⟨dated, fun registered => by simp [WorkerPc.registered] at registered,
        fun fts store => by simp at store, fun path between => ?_⟩
      simp only [WorkerPc.between, Option.some.injEq] at between
      subst between
      exact ⟨_, opened_read dated _ found reply⟩
  | replied pc found reply =>
      have before := known (by rw [pc]; rfl)
      refine ⟨dated, fun _ => ⟨before.past, fun path file current => ?_⟩,
        fun fts store => by simp at store, fun opened between => ?_⟩
      · obtain ⟨bound, _⟩ := before.current path file current
        refine ⟨bound, fun _ => ?_⟩
        simp only [found, Option.some.injEq, Prod.mk.injEq] at current
        exact current.2 ▸ reply.symm
      · simp only [WorkerPc.between, Option.some.injEq] at between
        subst between
        exact ⟨_, opened_read dated _ found reply⟩
  | registered pc same =>
      subst same
      obtain ⟨file, held⟩ := opened _ (by rw [pc]; rfl)
      exact fresh.move _ _ (held.known dated) rfl rfl (by simp)
  | statted pc =>
      obtain ⟨file, held⟩ := opened _ (by rw [pc]; rfl)
      have now := held.known dated
      have before := known (by rw [pc]; rfl)
      refine ⟨dated, fun _ => ⟨before.past, before.current⟩, fun fts store => ?_,
        fun opened between => by simp [WorkerPc.between] at between⟩
      simp only [WorkerPc.store.injEq] at store
      exact store ▸ ⟨now.past, now.current⟩
  | stored pc =>
      exact fresh.move { server.session with confTs := _ } _ (stored _ pc) rfl rfl (by simp)
  | seen _ _ => exact fresh
  | due _ _ _ => exact fresh.rearm _ true
  | woken pc _ =>
      exact fresh.move { server.session with needReply := false } _ (known (by rw [pc]; rfl)) rfl
        rfl (by simp)
  | idled pc _ => exact fresh.move _ _ (known (by rw [pc]; rfl)) rfl rfl (by simp)
  | disarmed pc =>
      exact fresh.move { server.session with events := server.session.events &&& ~~~epollOut } _
        (known (by rw [pc]; rfl)) rfl rfl (by simp)
  | kept pc => exact fresh.move _ _ (known (by rw [pc]; rfl)) rfl rfl (by simp)

theorem fresh_reachable {server : Server} (reached : machine.Reachable Quiet server) :
    Fresh server := by
  apply reached.invariant
  · rintro state ⟨files, clock, ip, dated, rfl⟩
    exact fresh_start dated ip
  · exact fun state action after fresh quiet stepped => fresh_step fresh quiet (step_cases stepped)

/-- If no update hits a file between the two parts of a reply, a remembered
timestamp that is not older than the file stands for its whole content. -/
theorem sent_is_current {server : Server} {file : ConfFile}
    (reached : machine.Reachable Quiet server) (registered : server.worker.registered = true)
    (current : (openConf server.files server.session.ip).map Prod.snd = some file)
    (plain : Plain file.content)
    (seen : checkTs server.files server.session.ip ≤ server.session.confTs) :
    server.sent = some file.content := by
  have fresh := fresh_reachable reached
  obtain ⟨⟨path, other⟩, found, rfl⟩ := Option.map_eq_some_iff.mp current
  obtain ⟨bound, exact_content⟩ := (fresh.known registered).current path other found
  have ts : checkTs server.files server.session.ip = other.ctime := by
    simp only [checkTs, found]
    exact fresh.dated.ts (openConf_path found)
  rw [exact_content (by omega), replyBytes_plain plain]

theorem oneConf_dated (path : ConfPath) (content : List UInt8) :
    Dated (oneConf path content) 1 := by
  refine ⟨by decide, fun other file found => ?_⟩
  simp only [oneConf, Function.update_apply] at found
  split at found
  · rw [← Option.some.inj found]
  · contradiction

def repliedTwice : List Action :=
  [.read true, .stat, .update (hostConf 0) [98, 10] 2, .scan true, .wake, .read true, .stat,
    .store, .disarm true]

theorem sent_is_current_twice :
    ∃ server : Server, server.session.needReply = false ∧ server.sent = some [98, 10] := by
  have ran : (machine.runAllowed Quiet (startServer (oneConf (hostConf 0) [97, 10]) 1 0)
      repliedTwice).map (fun server => (server.worker.registered, server.session.needReply,
        (openConf server.files server.session.ip).map Prod.snd,
        checkTs server.files server.session.ip, server.session.confTs)) =
      some (true, false, some { content := [98, 10], ctime := 2 }, 2, 2) := by
    decide
  obtain ⟨server, finished, outcome⟩ := Option.map_eq_some_iff.mp ran
  simp only [Prod.mk.injEq] at outcome
  obtain ⟨registered, quiet, current, now, seen⟩ := outcome
  have initial : machine.Reachable Quiet (startServer (oneConf (hostConf 0) [97, 10]) 1 0) :=
    .start ⟨_, _, _, oneConf_dated _ _, rfl⟩
  exact ⟨server, quiet, sent_is_current (initial.of_runAllowed finished) registered current
    (by decide) (by omega)⟩

/-- An update between the two parts of the first reply is never sent. -/
theorem stale_content_kept :
    ¬∀ (server : Server) (file : ConfFile), machine.Reachable (fun _ _ => True) server →
      server.worker.registered = true →
      (openConf server.files server.session.ip).map Prod.snd = some file →
      server.session.needReply = false →
      checkTs server.files server.session.ip ≤ server.session.confTs →
      server.sent = some file.content := by
  intro always
  have ran : (machine.run (startServer (oneConf (hostConf 0) [97, 10]) 1 0)
      [.read true, .update (hostConf 0) [98, 10] 2, .stat]).map (fun server =>
        ((server.worker.registered, server.session.needReply, server.sent),
          (openConf server.files server.session.ip).map Prod.snd,
          checkTs server.files server.session.ip, server.session.confTs)) =
      some ((true, false, some [97, 10]), some { content := [98, 10], ctime := 2 }, 2, 2) := by
    decide
  obtain ⟨server, finished, outcome⟩ := Option.map_eq_some_iff.mp ran
  simp only [Prod.mk.injEq] at outcome
  obtain ⟨⟨registered, quiet, sent⟩, current, now, seen⟩ := outcome
  have initial : machine.Reachable (fun _ _ => True)
      (startServer (oneConf (hostConf 0) [97, 10]) 1 0) :=
    .start ⟨_, _, _, oneConf_dated _ _, rfl⟩
  have fresh := always server _
    (initial.of_run (Machine.along_of_forall (fun _ _ _ _ => trivial) _ _) finished) registered
    current quiet (by omega)
  simp [sent] at fresh

end DirtyCode.ConfSrv
