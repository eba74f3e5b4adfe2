import Synapi.Session

/-!
The players the API shows, and those who are on the game server: requests in
the order of the events keep the two alike.
-/

namespace Synapi

open Text Replay FormEncoding

/-- The value of each parameter. -/
def Attributes := Bytes → Option Bytes

def Attributes.set (a : Attributes) (pair : Bytes × Bytes) : Attributes :=
  fun name => if name = pair.1 then some pair.2 else a name

def Attributes.merge (a : Attributes) (parameters : List (Bytes × Bytes)) : Attributes :=
  parameters.foldl Attributes.set a

/-- The players the API shows: by the key of their server, and by id. -/
def Directory := Bytes → ℤ → Option Attributes

def Directory.empty : Directory := fun _ _ => none

def Directory.put (d : Directory) (key : Bytes) (id : ℤ) (a : Option Attributes) : Directory :=
  fun k i => if k = key ∧ i = id then a else d k i

def internalIdOf (parameters : List (Bytes × Bytes)) : Option ℤ :=
  (parameters.find? (fun pair => pair.1 = ascii "server_player[internal_id]")).bind
    (fun pair => parseDecimal pair.2)

def Directory.apply (d : Directory) (r : RestRequest) : Directory :=
  match r.method, r.resource with
  | .post, .serverPlayers key =>
    match internalIdOf r.parameters with
    | some id => d.put key id (some (Attributes.merge (fun _ => none) r.parameters))
    | none => d
  | .put, .serverPlayer key id => d.put key id ((d key id).map (·.merge r.parameters))
  | .delete, .serverPlayer key id => d.put key id none
  | _, _ => d

structure Player where
  index : Int32
  name : CString
  networkId : CString
  score : Int32

def Player.attributes (x : Player) : Attributes :=
  Attributes.merge (fun _ => none) (optionMeaning [.playerInternalId x.index,
    .playerScore x.score, .playerName x.name, .playerNetworkId x.networkId])

/-- The game server: its clients, and by index what those who have been checked
are called and have scored. -/
structure Board where
  engine : Engine
  players : ℤ → Option Player

def Board.empty : Board := ⟨.empty, fun _ => none⟩

def Board.setPlayer (b : Board) (id : ℤ) (x : Option Player) : ℤ → Option Player :=
  fun i => if i = id then x else b.players i

/-- Changes the player of the client that an event is about. -/
def Board.change (b : Board) (c : Option Client) (f : Player → Player) : ℤ → Option Player :=
  match c with
  | some c => b.setPlayer c.index.toInt ((b.players c.index.toInt).map f)
  | none => b.players

def Board.after (clip : Clip) (b : Board) (e : ClientEvent) : Board where
  engine := b.engine.after e
  players :=
    match e with
    | .connect _ _ => b.players
    | .postAdminCheck client name networkId =>
      b.setPlayer client.toInt (some ⟨client, clip.cut 64 name, clip.cut 64 networkId, 0⟩)
    | .playerScore _ score => b.change (b.engine.subject e) (fun x => { x with score := score })
    | .playerChangename _ newname =>
      b.change (b.engine.subject e) (fun x => { x with name := clip.cut 64 newname })
    | .disconnect client => b.setPlayer client.toInt none

def Board.shown (b : Board) : ℤ → Option Attributes := fun id => (b.players id).map Player.attributes

/-- A score or a name comes with the index of its client. -/
def Engine.Indexed (s : Engine) (e : ClientEvent) : Prop :=
  match e with
  | .playerScore _ _ | .playerChangename _ _ => ∀ c, s.subject e = some c → c.userid = c.index
  | _ => True

def ServerEvent.client? : ServerEvent → Option ClientEvent
  | .client e => some e
  | _ => none

def clientEvents (es : List ServerEvent) : List ClientEvent := es.filterMap ServerEvent.client?

def boardOf (clip : Clip) (es : List ServerEvent) : Board :=
  replay (Board.after clip) .empty (clientEvents es)

def Directory.read (d : Directory) (requests : List RestRequest) : Directory :=
  replay Directory.apply d requests

/-- What an event of the game server asks of the API. -/
def ServerEvent.meaning (clip : Clip) (key hostHeader : Bytes) (e : ServerEvent) :
    Option RestRequest :=
  (e.call clip).bind (·.meaning key hostHeader)

variable {clip : Clip} {key hostHeader : Bytes} {d : Directory} {b : Board} {e : ClientEvent}

/-! One player -/

theorem attributes_eq (x : Player) (n : Bytes) : x.attributes n =
    if n = ascii "server_player[network_identifier]" then some x.networkId.val
    else if n = ascii "server_player[name]" then some x.name.val
    else if n = ascii "server_player[score]" then some (decimal x.score.toInt)
    else if n = ascii "server_player[internal_id]" then some (decimal x.index.toInt)
    else none := rfl

theorem attributes_score (x : Player) (score : Int32) :
    x.attributes.merge (optionMeaning [.playerScore score]) =
      Player.attributes { x with score := score } := by
  have name : ascii "server_player[score]" ≠ ascii "server_player[name]" := by decide +kernel
  have network : ascii "server_player[score]" ≠ ascii "server_player[network_identifier]" := by
    decide +kernel
  funext n
  change (if n = ascii "server_player[score]" then some (decimal score.toInt) else x.attributes n) = _
  rw [attributes_eq, attributes_eq]
  by_cases hscore : n = ascii "server_player[score]"
  · rw [if_pos hscore, hscore, if_neg network, if_neg name, if_pos rfl]
  · simp only [if_neg hscore]

theorem attributes_name (x : Player) (s : CString) :
    x.attributes.merge (optionMeaning [.playerName s]) =
      Player.attributes { x with name := s } := by
  have network : ascii "server_player[name]" ≠ ascii "server_player[network_identifier]" := by
    decide +kernel
  funext n
  change (if n = ascii "server_player[name]" then some s.val else x.attributes n) = _
  rw [attributes_eq, attributes_eq]
  by_cases hname : n = ascii "server_player[name]"
  · rw [if_pos hname, hname, if_neg network, if_pos rfl]
  · simp only [if_neg hname]

theorem internalIdOf_new (index score : Int32) (name networkId : CString) :
    internalIdOf (optionMeaning [.playerInternalId index, .playerScore score, .playerName name,
      .playerNetworkId networkId]) = some index.toInt := by
  simp [internalIdOf, optionMeaning, SynapiOption.name, SynapiOption.value, parseDecimal_decimal]

theorem apply_new (d : Directory) (key : Bytes) (index score : Int32) (name networkId : CString)
    (headers : List Bytes) :
    d.apply ⟨.post, .serverPlayers key, headers, optionMeaning [.playerInternalId index,
        .playerScore score, .playerName name, .playerNetworkId networkId]⟩ =
      d.put key index.toInt (some (Player.attributes ⟨index, name, networkId, score⟩)) := by
  simp only [Directory.apply, internalIdOf_new]
  rfl

theorem put_key (d : Directory) (key : Bytes) (id : ℤ) (a : Option Attributes) :
    d.put key id a key = fun i => if i = id then a else d key i := by
  funext i
  simp [Directory.put]

theorem shown_set (b : Board) (s : Engine) (id : ℤ) (x : Option Player) :
    Board.shown ⟨s, b.setPlayer id x⟩ = fun i => if i = id then x.map Player.attributes else b.shown i := by
  funext i
  simp only [Board.shown, Board.setPlayer]
  split_ifs <;> rfl

/-! One event -/

theorem apply_update (hd : d key = b.shown) (id : Int32) (s : Engine)
    {options : List SynapiOption} {f : Player → Player}
    (hf : ∀ x : Player, x.attributes.merge (optionMeaning options) = (f x).attributes)
    (headers : List Bytes) :
    d.apply ⟨.put, .serverPlayer key id.toInt, headers, optionMeaning options⟩ key =
      Board.shown ⟨s, b.setPlayer id.toInt ((b.players id.toInt).map f)⟩ := by
  change d.put key id.toInt ((d key id.toInt).map (·.merge (optionMeaning options))) key = _
  rw [put_key, shown_set, hd]
  funext i
  split_ifs
  · cases hx : b.players id.toInt with
    | none => simp only [Board.shown, hx, Option.map_none]
    | some x => simp only [Board.shown, hx, Option.map_some, hf]
  · rfl

theorem subject_userid {s : Engine} {userid : Int32} {c : Client}
    (h : s.clients.find? (fun c => c.userid == userid) = some c) : c.userid = userid := by
  simpa using List.find?_some h

theorem change_some {c : Client} (h : b.engine.subject e = some c) (f : Player → Player) :
    b.change (b.engine.subject e) f = b.setPlayer c.index.toInt ((b.players c.index.toInt).map f) := by
  rw [h]
  rfl

theorem read_event (hdeliver : b.engine.Delivers e) (hindex : b.engine.Indexed e)
    (hd : d key = b.shown) :
    d.read ((ServerEvent.client e).meaning clip key hostHeader).toList key =
      (b.after clip e).shown := by
  let headers := [hostHeader].filterMap customHeader
  cases e with
  | connect client userid => exact hd
  | postAdminCheck client name networkId =>
    have new := apply_new d key client 0 (clip.cut 64 name) (clip.cut 64 networkId) headers
    refine (congrFun new key).trans ?_
    rw [put_key, hd]
    exact (shown_set b _ client.toInt (some _)).symm
  | playerScore userid score =>
    obtain ⟨c, hs, -⟩ := hdeliver
    have same : userid = c.index := (subject_userid hs).symm.trans (hindex c hs)
    have updated := apply_update hd c.index (b.engine.after (.playerScore userid score))
      (fun x => attributes_score x score) headers
    rw [← change_some hs, ← same] at updated
    exact updated
  | playerChangename userid newname =>
    obtain ⟨c, hs, -⟩ := hdeliver
    have same : userid = c.index := (subject_userid hs).symm.trans (hindex c hs)
    have updated := apply_update hd c.index (b.engine.after (.playerChangename userid newname))
      (fun x => attributes_name x (clip.cut 64 newname)) headers
    rw [← change_some hs, ← same] at updated
    exact updated
  | disconnect client =>
    change d.put key client.toInt none key = _
    rw [put_key, hd]
    exact (shown_set b _ client.toInt none).symm

theorem read_other {e : ServerEvent} (h : e.client? = none) (d : Directory) :
    d.read (e.meaning clip key hostHeader).toList = d := by
  cases e with
  | client e => cases h
  | _ => rfl

/-! All events -/

theorem read_append (d : Directory) (first second : List RestRequest) :
    d.read (first ++ second) = (d.read first).read second :=
  replay_append d first second

theorem boardOf_engine (clip : Clip) (es : List ServerEvent) :
    (boardOf clip es).engine = replay Engine.after .empty (clientEvents es) := by
  rw [boardOf]
  induction clientEvents es using List.reverseRecOn with
  | nil => rfl
  | append_singleton events e ih =>
    rw [replay_append, replay_append, ← ih]
    rfl

/-- The requests of a sequence of events make the directory show the board. -/
theorem directory_shows (clip : Clip) (key hostHeader : Bytes) (es : List ServerEvent)
    (hdeliver : Legal Engine.after Engine.Delivers .empty (clientEvents es))
    (hindex : Legal Engine.after Engine.Indexed .empty (clientEvents es)) :
    Directory.read .empty (es.filterMap (ServerEvent.meaning clip key hostHeader)) key =
      (boardOf clip es).shown := by
  induction es using List.reverseRecOn with
  | nil => rfl
  | append_singleton es e ih =>
    have split : (es ++ [e]).filterMap (ServerEvent.meaning clip key hostHeader) =
        es.filterMap (ServerEvent.meaning clip key hostHeader) ++
          (e.meaning clip key hostHeader).toList := by
      rw [List.filterMap_append, List.filterMap_cons, List.filterMap_nil]
      cases e.meaning clip key hostHeader <;> rfl
    have clients : clientEvents (es ++ [e]) = clientEvents es ++ e.client?.toList := by
      rw [clientEvents, List.filterMap_append, List.filterMap_cons, List.filterMap_nil]
      cases e.client? <;> rfl
    rw [clients] at hdeliver hindex
    obtain ⟨hdeliver, last⟩ := legal_append.mp hdeliver
    obtain ⟨hindex, named⟩ := legal_append.mp hindex
    have before := ih hdeliver hindex
    rw [split, read_append, boardOf, clients, replay_append]
    cases e with
    | client e =>
      rw [← boardOf_engine clip] at last named
      exact read_event last.1 named.1 before
    | _ =>
      rw [read_other rfl]
      exact before

end Synapi
