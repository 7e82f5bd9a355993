import TreePool.Settings.Reader
import TreePool.Proofs.Json.Fields

/-! # The format of settings

Which texts are settings, and which settings they are, is said by a grammar that knows nothing of
the reader. The main result is `parse_iff_denotes`: settings are read exactly from the texts that
denote them and that keep the bounds, and the first bound that fails is reported.
-/

namespace TreePool
namespace Settings

open Json

variable {text start next rest : List Char}

/-! ## The grammar -/

abbrev ServerValue : List Char → Phrase (Field (List Char) Int) :=
  FieldValue "name".toList "workers".toList StringPhrase Integer32Phrase

/-- A server: an object with a name, or a list of the name and the workers. -/
inductive ServerPhrase : Phrase Server
  | object {text rest name : List Char} {members : List (Field (List Char) Int)}
      {workers : Option Int} (h : ObjectPhrase ServerValue text members rest)
      (hn : members.filterMap Field.first? = [name])
      (hw : members.filterMap Field.second? = workers.toList) :
      ServerPhrase text ⟨String.ofList name, workers.getD inherited⟩ rest
  | name {text rest name : List Char} (hn : Padded StringPhrase text name (']' :: rest)) :
      ServerPhrase ('[' :: text) ⟨String.ofList name, inherited⟩ rest
  | both {text next rest name : List Char} {workers : Int}
      (hn : Padded StringPhrase text name (',' :: next))
      (hw : Padded Integer32Phrase next workers (']' :: rest)) :
      ServerPhrase ('[' :: text) ⟨String.ofList name, workers⟩ rest

abbrev SettingsValue : List Char → Phrase (Field Int (List Server)) :=
  FieldValue "workers".toList "servers".toList Integer32Phrase (ListPhrase ServerPhrase)

/-- Settings: an object, or a list of the workers and the servers, the last of which may be
missing. -/
inductive SettingsPhrase : Phrase Settings
  | object {text rest : List Char} {members : List (Field Int (List Server))}
      {workers : Option Int} {servers : Option (List Server)}
      (h : ObjectPhrase SettingsValue text members rest)
      (hw : members.filterMap Field.first? = workers.toList)
      (hs : members.filterMap Field.second? = servers.toList) :
      SettingsPhrase text ⟨workers.getD 0, servers.getD []⟩ rest
  | neither {text rest : List Char} (hb : Blanks text (']' :: rest)) :
      SettingsPhrase ('[' :: text) ⟨0, []⟩ rest
  | workers {text rest : List Char} {workers : Int}
      (hw : Padded Integer32Phrase text workers (']' :: rest)) :
      SettingsPhrase ('[' :: text) ⟨workers, []⟩ rest
  | both {text next rest : List Char} {workers : Int} {servers : List Server}
      (hw : Padded Integer32Phrase text workers (',' :: next))
      (hs : Padded (ListPhrase ServerPhrase) next servers (']' :: rest)) :
      SettingsPhrase ('[' :: text) ⟨workers, servers⟩ rest

def Denotes (text : List Char) (settings : Settings) : Prop :=
  Padded SettingsPhrase text settings []

inductive FirstFault : Settings → SettingFault → Prop
  | workers {settings : Settings} (h : settings.workers < 0) :
      FirstFault settings (.negativeWorkers settings.workers)
  | server {settings : Settings} {before after : List Server} {server : Server}
      (h : 0 ≤ settings.workers) (hs : settings.servers = before ++ server :: after)
      (hb : ∀ server ∈ before, -1 ≤ server.workers) (hw : server.workers < -1) :
      FirstFault settings (.serverWorkers server.name server.workers)

/-! ## Objects -/

def serverLayout : Layout ServerMembers (List Char) Int where
  make name workers := ⟨name, workers⟩
  first := ServerMembers.name
  second := ServerMembers.workers
  first_make _ _ := rfl
  second_make _ _ := rfl
  make_eq _ := rfl

theorem serverLayout_reads : serverLayout.Reads readServerMember "name".toList "workers".toList
    readStringValue readInteger32 where
  first _ _ := ⟨"name", rfl⟩
  second _ _ := ⟨"workers", rfl⟩
  other {key} s text hn hw := by
    unfold readServerMember
    split
    · next h => exact absurd (by rw [← h, String.toList_ofList]) hn
    · next h => exact absurd (by rw [← h, String.toList_ofList]) hw
    · rfl

def settingsLayout : Layout Members Int (List Server) where
  make workers servers := ⟨workers, servers⟩
  first := Members.workers
  second := Members.servers
  first_make _ _ := rfl
  second_make _ _ := rfl
  make_eq _ := rfl

theorem settingsLayout_reads : settingsLayout.Reads readMember "workers".toList "servers".toList
    readInteger32 (readSequence readServer) where
  first _ _ := ⟨"workers", rfl⟩
  second _ _ := ⟨"servers", rfl⟩
  other {key} s text hw hs := by
    unfold readMember
    split
    · next h => exact absurd (by rw [← h, String.toList_ofList]) hw
    · next h => exact absurd (by rw [← h, String.toList_ofList]) hs
    · rfl

/-! ## Servers -/

theorem readServerObject_eq_ok_iff {server : Server} :
    readServerObject text = .ok (server, rest) ↔ ServerPhrase ('\x7b' :: text) server rest := by
  have hread {known : ServerMembers} {rest : List Char} :=
    @Layout.Reads.readMembers_eq_ok_iff _ _ _ text rest _ _ _ _ _ _ _ _ serverLayout_reads
      recognises_readStringValue recognises_readInteger32 known
  constructor
  · intro h
    obtain ⟨⟨known, behind⟩, hmembers, h⟩ := bind_eq_ok_iff.mp h
    obtain ⟨members, henclosed, hname, hworkers⟩ := hread.mp hmembers
    obtain ⟨_ | name, workers⟩ := known
    · cases h
    · cases h
      exact .object ⟨text, rfl, henclosed⟩ hname hworkers
  · intro h
    cases h with
    | @object _ _ name members workers h hn hw =>
      obtain ⟨_, htext, henclosed⟩ := h
      cases htext
      have hmembers := (@hread ⟨some name, workers⟩ rest).mpr ⟨members, henclosed, hn, hw⟩
      exact bind_eq_ok_iff.mpr ⟨_, hmembers, rfl⟩

theorem readServerSequence_eq_ok_iff {server : Server} :
    readServerSequence text = .ok (server, rest) ↔ ServerPhrase ('[' :: text) server rest := by
  have hstring := recognises_readStringValue
  have hinteger := recognises_readInteger32
  constructor
  · intro h
    obtain ⟨⟨more, next⟩, hnext, h⟩ := bind_eq_ok_iff.mp h
    cases continues_of_nextElement hnext with
    | close => cases h
    | first hb hc =>
      obtain ⟨⟨name, behind⟩, hname, h⟩ := bind_eq_ok_iff.mp h
      obtain ⟨⟨more, next⟩, hnext, h⟩ := bind_eq_ok_iff.mp h
      cases continues_of_nextElement hnext with
      | close hr =>
        obtain ⟨⟨workers, last⟩, hworkers, h⟩ := bind_eq_ok_iff.mp h
        cases hworkers
        obtain ⟨stop, hend, h⟩ := bind_eq_ok_iff.mp h
        cases h
        exact .name (hstring.padded hb hname (hr.trans (endSequence_eq_ok_iff.mp hend)))
      | comma hr ha =>
        obtain ⟨⟨workers, last⟩, hworkers, h⟩ := bind_eq_ok_iff.mp h
        obtain ⟨stop, hend, h⟩ := bind_eq_ok_iff.mp h
        cases h
        exact .both (hstring.padded hb hname hr)
          (hinteger.padded ha hworkers (endSequence_eq_ok_iff.mp hend))
  · intro h
    cases h with
    | object h =>
      obtain ⟨_, htext, -⟩ := h
      cases htext
    | name hn =>
      obtain ⟨_, _, hstart, hname, hr⟩ :=
        hstring.exists_element hn (stops_closing .list) .first
      have hnext := (Continues.close hr : Continues false _ _ _).nextElement_eq
      refine bind_eq_ok_iff.mpr ⟨_, hstart, bind_eq_ok_iff.mpr ⟨_, hname, ?_⟩⟩
      refine bind_eq_ok_iff.mpr ⟨_, hnext, bind_eq_ok_iff.mpr ⟨_, rfl, ?_⟩⟩
      exact bind_eq_ok_iff.mpr ⟨_, endSequence_eq_ok_iff.mpr .done, rfl⟩
    | both hn hw =>
      obtain ⟨_, _, hstart, hname, hr⟩ := hstring.exists_element hn stops_comma .first
      obtain ⟨_, _, hnext, hworkers, hr⟩ :=
        hinteger.exists_element hw (stops_closing .list) (.comma hr)
      refine bind_eq_ok_iff.mpr ⟨_, hstart, bind_eq_ok_iff.mpr ⟨_, hname, ?_⟩⟩
      refine bind_eq_ok_iff.mpr ⟨_, hnext, bind_eq_ok_iff.mpr ⟨_, hworkers, ?_⟩⟩
      exact bind_eq_ok_iff.mpr ⟨_, endSequence_eq_ok_iff.mpr hr, rfl⟩

theorem recognises_readServer : Recognises readServer ServerPhrase where
  sound {text rest server} h := by
    obtain ⟨start, hs, h⟩ := bind_eq_ok_iff.mp h
    have hblanks := (nextValue_eq_ok_iff.mp hs).1
    split at h
    · exact ⟨_, hblanks, readServerSequence_eq_ok_iff.mp h⟩
    · exact ⟨_, hblanks, readServerObject_eq_ok_iff.mp h⟩
    · exact absurd h refuseType_ne_ok
  complete {text start rest server} hb h _ := by
    have hlist {body : List Char} (h : ServerPhrase ('[' :: body) server rest)
        (hb : Blanks text ('[' :: body)) : readServer text = .ok (server, rest) :=
      bind_eq_ok_iff.mpr ⟨_, hb.nextValue_eq rfl, readServerSequence_eq_ok_iff.mpr h⟩
    cases h with
    | object hobject hn hw =>
      obtain ⟨body, rfl, henclosed⟩ := hobject
      have hread := readServerObject_eq_ok_iff.mpr (.object ⟨body, rfl, henclosed⟩ hn hw)
      exact bind_eq_ok_iff.mpr ⟨_, hb.nextValue_eq rfl, hread⟩
    | name hn => exact hlist (.name hn) hb
    | both hn hw => exact hlist (.both hn hw) hb
  starts {text rest server} h := by
    cases h with
    | object hobject =>
      obtain ⟨body, rfl, -⟩ := hobject
      exact ⟨'\x7b', body, rfl, rfl, by decide⟩
    | name | both => exact ⟨'[', _, rfl, rfl, by decide⟩
  shrinks {text rest server} h := by
    have hvalues := serverLayout_reads.gathers recognises_readStringValue recognises_readInteger32
    cases h with
    | object hobject =>
      obtain ⟨body, rfl, henclosed⟩ := hobject
      exact Nat.lt_succ_of_lt (henclosed.length_lt hvalues.toAdds.member_length_lt)
    | name hn =>
      have hname := recognises_readStringValue.padded_length_lt hn
      simp only [List.length_cons] at hname ⊢
      omega
    | both hn hw =>
      have hname := recognises_readStringValue.padded_length_lt hn
      have hworkers := recognises_readInteger32.padded_length_lt hw
      simp only [List.length_cons] at hname hworkers ⊢
      omega

/-! ## Settings -/

theorem readObject_eq_ok_iff {settings : Settings} :
    readObject text = .ok (settings, rest) ↔ SettingsPhrase ('\x7b' :: text) settings rest := by
  have hread {known : Members} {rest : List Char} :=
    @Layout.Reads.readMembers_eq_ok_iff _ _ _ text rest _ _ _ _ _ _ _ _ settingsLayout_reads
      recognises_readInteger32 recognises_readServer.sequence known
  constructor
  · intro h
    obtain ⟨⟨known, behind⟩, hmembers, h⟩ := bind_eq_ok_iff.mp h
    obtain ⟨members, henclosed, hworkers, hservers⟩ := hread.mp hmembers
    cases h
    exact .object ⟨text, rfl, henclosed⟩ hworkers hservers
  · intro h
    cases h with
    | @object _ _ members workers servers h hw hs =>
      obtain ⟨_, htext, henclosed⟩ := h
      cases htext
      have hmembers := (@hread ⟨workers, servers⟩ rest).mpr ⟨members, henclosed, hw, hs⟩
      exact bind_eq_ok_iff.mpr ⟨_, hmembers, rfl⟩

theorem settingsPhrase_of_readFields {settings : Settings}
    (h : readFields text = .ok (settings, rest)) : SettingsPhrase ('[' :: text) settings rest := by
  have hinteger := recognises_readInteger32
  have hsequence := recognises_readServer.sequence
  obtain ⟨⟨more, next⟩, hnext, h⟩ := bind_eq_ok_iff.mp h
  cases continues_of_nextElement hnext with
  | close hb =>
    obtain ⟨⟨workers, last⟩, hworkers, h⟩ := bind_eq_ok_iff.mp h
    cases hworkers
    obtain ⟨⟨more, next⟩, hnext, h⟩ := bind_eq_ok_iff.mp h
    obtain ⟨hmore, rfl⟩ := (continues_of_nextElement hnext).of_closing
    cases hmore
    obtain ⟨⟨servers, last⟩, hservers, h⟩ := bind_eq_ok_iff.mp h
    cases hservers
    obtain ⟨stop, hend, h⟩ := bind_eq_ok_iff.mp h
    cases h
    exact .neither (hb.trans (endSequence_eq_ok_iff.mp hend))
  | first hb hc =>
    obtain ⟨⟨workers, behind⟩, hworkers, h⟩ := bind_eq_ok_iff.mp h
    obtain ⟨⟨more, next⟩, hnext, h⟩ := bind_eq_ok_iff.mp h
    cases continues_of_nextElement hnext with
    | close hr =>
      obtain ⟨⟨servers, last⟩, hservers, h⟩ := bind_eq_ok_iff.mp h
      cases hservers
      obtain ⟨stop, hend, h⟩ := bind_eq_ok_iff.mp h
      cases h
      exact .workers (hinteger.padded hb hworkers (hr.trans (endSequence_eq_ok_iff.mp hend)))
    | comma hr ha =>
      obtain ⟨⟨servers, last⟩, hservers, h⟩ := bind_eq_ok_iff.mp h
      obtain ⟨stop, hend, h⟩ := bind_eq_ok_iff.mp h
      cases h
      exact .both (hinteger.padded hb hworkers hr)
        (hsequence.padded ha hservers (endSequence_eq_ok_iff.mp hend))

theorem readFields_eq_ok_iff {settings : Settings} :
    readFields text = .ok (settings, rest) ↔ SettingsPhrase ('[' :: text) settings rest := by
  have hinteger := recognises_readInteger32
  have hsequence := recognises_readServer.sequence
  refine ⟨settingsPhrase_of_readFields, fun h => ?_⟩
  have hclosed {first : Bool} {text : List Char} (hb : Blanks text (']' :: rest)) :
      nextElement first text = .ok (false, ']' :: rest) := (Continues.close hb).nextElement_eq
  have hend : endSequence (']' :: rest) = .ok rest := endSequence_eq_ok_iff.mpr .done
  cases h with
  | object h =>
    obtain ⟨_, htext, -⟩ := h
    cases htext
  | neither hb =>
    refine bind_eq_ok_iff.mpr ⟨_, hclosed hb, bind_eq_ok_iff.mpr ⟨_, rfl, ?_⟩⟩
    refine bind_eq_ok_iff.mpr ⟨_, hclosed .done, bind_eq_ok_iff.mpr ⟨_, rfl, ?_⟩⟩
    exact bind_eq_ok_iff.mpr ⟨_, hend, rfl⟩
  | workers hw =>
    obtain ⟨_, _, hstart, hworkers, hr⟩ := hinteger.exists_element hw (stops_closing .list) .first
    refine bind_eq_ok_iff.mpr ⟨_, hstart, bind_eq_ok_iff.mpr ⟨_, hworkers, ?_⟩⟩
    refine bind_eq_ok_iff.mpr ⟨_, hclosed hr, bind_eq_ok_iff.mpr ⟨_, rfl, ?_⟩⟩
    exact bind_eq_ok_iff.mpr ⟨_, hend, rfl⟩
  | both hw hs =>
    obtain ⟨_, _, hstart, hworkers, hr⟩ := hinteger.exists_element hw stops_comma .first
    obtain ⟨_, _, hnext, hservers, hr⟩ :=
      hsequence.exists_element hs (stops_closing .list) (.comma hr)
    refine bind_eq_ok_iff.mpr ⟨_, hstart, bind_eq_ok_iff.mpr ⟨_, hworkers, ?_⟩⟩
    refine bind_eq_ok_iff.mpr ⟨_, hnext, bind_eq_ok_iff.mpr ⟨_, hservers, ?_⟩⟩
    exact bind_eq_ok_iff.mpr ⟨_, endSequence_eq_ok_iff.mpr hr, rfl⟩

theorem recognises_read : Recognises read SettingsPhrase where
  sound {text rest settings} h := by
    obtain ⟨start, hs, h⟩ := bind_eq_ok_iff.mp h
    have hblanks := (nextValue_eq_ok_iff.mp hs).1
    split at h
    · exact ⟨_, hblanks, readFields_eq_ok_iff.mp h⟩
    · exact ⟨_, hblanks, readObject_eq_ok_iff.mp h⟩
    · exact absurd h refuseType_ne_ok
  complete {text start rest settings} hb h _ := by
    have hlist {body : List Char} (h : SettingsPhrase ('[' :: body) settings rest)
        (hb : Blanks text ('[' :: body)) : read text = .ok (settings, rest) :=
      bind_eq_ok_iff.mpr ⟨_, hb.nextValue_eq rfl, readFields_eq_ok_iff.mpr h⟩
    cases h with
    | object hobject hw hs =>
      obtain ⟨body, rfl, henclosed⟩ := hobject
      have hread := readObject_eq_ok_iff.mpr (.object ⟨body, rfl, henclosed⟩ hw hs)
      exact bind_eq_ok_iff.mpr ⟨_, hb.nextValue_eq rfl, hread⟩
    | neither hn => exact hlist (.neither hn) hb
    | workers hw => exact hlist (.workers hw) hb
    | both hw hs => exact hlist (.both hw hs) hb
  starts {text rest settings} h := by
    cases h with
    | object hobject =>
      obtain ⟨body, rfl, -⟩ := hobject
      exact ⟨'\x7b', body, rfl, rfl, by decide⟩
    | neither | workers | both => exact ⟨'[', _, rfl, rfl, by decide⟩
  shrinks {text rest settings} h := by
    have hgathers := settingsLayout_reads.gathers recognises_readInteger32
      recognises_readServer.sequence
    cases h with
    | object hobject =>
      obtain ⟨body, rfl, henclosed⟩ := hobject
      exact Nat.lt_succ_of_lt (henclosed.length_lt hgathers.toAdds.member_length_lt)
    | neither hb => exact Nat.lt_succ_of_lt hb.length_le
    | workers hw =>
      have hworkers := recognises_readInteger32.padded_length_lt hw
      exact Nat.lt_succ_of_lt (Nat.lt_of_succ_lt hworkers)
    | both hw hs =>
      have hworkers := recognises_readInteger32.padded_length_lt hw
      have hservers := recognises_readServer.sequence.padded_length_lt hs
      simp only [List.length_cons] at hworkers hservers ⊢
      omega

theorem readWhole_eq_ok_iff {settings : Settings} :
    readWhole read text = .ok settings ↔ Denotes text settings :=
  recognises_read.readWhole_eq_ok_iff

theorem Denotes.unique {s t : Settings} (hs : Denotes text s) (ht : Denotes text t) : s = t := by
  have hread := (readWhole_eq_ok_iff.mpr hs).symm.trans (readWhole_eq_ok_iff.mpr ht)
  exact Except.ok.inj hread

/-! ## Bounds -/

theorem serverFault?_eq_none_iff {server : Server} :
    server.fault? = none ↔ -1 ≤ server.workers := by
  unfold Server.fault? inherited
  split
  · next h => exact iff_of_false nofun (Int.not_le.mpr h)
  · next h => exact iff_of_true rfl (Int.not_lt.mp h)

theorem serverFault?_eq_some_iff {server : Server} {fault : SettingFault} :
    server.fault? = some fault ↔
      server.workers < -1 ∧ fault = .serverWorkers server.name server.workers := by
  unfold Server.fault? inherited
  split
  · next h => simp only [Option.some.injEq, h, true_and, eq_comm]
  · next h => exact iff_of_false nofun fun ⟨hlt, _⟩ => h hlt

theorem fault?_eq_none_iff {settings : Settings} : settings.fault? = none ↔
    0 ≤ settings.workers ∧ ∀ server ∈ settings.servers, -1 ≤ server.workers := by
  unfold fault?
  split
  · next h => exact iff_of_false nofun fun ⟨hle, _⟩ => Int.not_le.mpr h hle
  · next h =>
    simp only [List.findSome?_eq_none_iff, serverFault?_eq_none_iff]
    exact (and_iff_right (Int.not_lt.mp h)).symm

theorem fault?_eq_some_iff {settings : Settings} {fault : SettingFault} :
    settings.fault? = some fault ↔ FirstFault settings fault := by
  unfold fault?
  split
  · next hlt =>
    constructor
    · intro h
      cases h
      exact .workers hlt
    · intro h
      cases h with
      | workers => rfl
      | server hle => exact absurd hlt (Int.not_lt.mpr hle)
  · next hle =>
    simp only [List.findSome?_eq_some_iff, serverFault?_eq_some_iff, serverFault?_eq_none_iff]
    constructor
    · rintro ⟨before, server, after, hs, ⟨hw, rfl⟩, hb⟩
      exact .server (Int.not_lt.mp hle) hs hb hw
    · intro h
      cases h with
      | workers hlt => exact absurd hlt hle
      | server _ hs hb hw => exact ⟨_, _, _, hs, ⟨hw, rfl⟩, hb⟩

/-- Settings are read exactly from the texts that denote them and keep the bounds. Where a text
denotes settings that do not, the first bound that fails is reported: the one of the global workers,
and behind it those of the servers in their order. A text that denotes no settings is refused for
its JSON. -/
theorem parse_iff_denotes (text : List Char) :
    (∀ settings, parse text = .ok settings ↔ Denotes text settings ∧ 0 ≤ settings.workers ∧
      ∀ server ∈ settings.servers, -1 ≤ server.workers) ∧
    (∀ fault, parse text = .error (.invalidSettings fault) ↔
      ∃ settings, Denotes text settings ∧ FirstFault settings fault) ∧
    ((∃ e, parse text = .error (.json e)) ↔ ∀ settings, ¬Denotes text settings) := by
  simp only [← readWhole_eq_ok_iff, ← fault?_eq_none_iff, ← fault?_eq_some_iff]
  unfold parse
  cases hread : readWhole read text with
  | error e => simp
  | ok settings => cases hfault : settings.fault? <;> simp [hfault]

end Settings
end TreePool
