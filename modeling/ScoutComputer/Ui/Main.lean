import Mathlib.Logic.Function.Basic
import ScoutComputer.Ui.TextBox

/-!
# The loop of `main`

In each frame the tabs are polled, the bluetooth server has its turn, and then the scene
shown polls its own buttons and draws its boxes. What a button sets off outside of the
window is recorded; what the window looks like is left out.
-/

namespace ScoutComputer

/-- `SCENES`. -/
inductive Scene where
  | scanning
  | database
  | bluetooth
  | pong
  deriving DecidableEq

/-! ## `Button` -/

/-- What `isPressed` reads of a `Button`. -/
structure Button where
  lastClickState : Bool
  disabled : Bool
  deriving DecidableEq

namespace Button

def create : Button := ⟨false, false⟩

def disable (b : Button) : Button := { b with disabled := true }

def enable (b : Button) : Button := { b with disabled := false }

/-- `isPressed`, where `clickState` is whether the mouse is held down over the button. -/
def isPressed (b : Button) (clickState : Bool) : Bool × Button :=
  if b.disabled then (false, b)
  else (clickState && !b.lastClickState, { b with lastClickState := clickState })

end Button

/-! ## The window -/

/-- The buttons that are polled. -/
inductive Control where
  | mainTab
  | databaseTab
  | bluetoothTab
  | amplifyBlue
  | amplifyRed
  | rest
  | db
  | tournamentSubmit
  | scouterUpdate
  | submit
  | disconnectAllTabs
  | pong
  | pongback
  | pongreset
  deriving DecidableEq

/-- The text boxes. -/
inductive Box where
  | matchBoxMain
  | teamBox
  | matchBox
  | tournamentMatch
  deriving DecidableEq

/-- `sizeLimit` of each box. -/
def Box.sizeLimit : Box → Nat
  | tournamentMatch => 15
  | _ => 10

/-- What a button sets off outside of the window. -/
inductive Task where
  | execQuery (statement : List Byte) (length : Int)
  | deleteteams
  | getteamdata (page : Nat)
  | getteamsatcomphdata (eventkey : List Byte)
  | scouterUpdate
  | killAllSockets
  | pongReset
  | toast (message : String)
  deriving DecidableEq

/-- What is recorded of a frame. -/
inductive Event where
  | updateAllBt
  | pressed (control : Control) (tasks : List Task)
  | pongUpdate
  deriving DecidableEq

/-- What the user does in a frame. -/
structure Input where
  /-- The mouse is held down over the button. -/
  clickState : Control → Bool
  typing : Box → Frame

/-- The locals of `main` that decide what a frame does. -/
structure Window where
  currentScene : Scene
  button : Control → Button
  box : Box → TextBox

namespace Window

def setButton (w : Window) (c : Control) (b : Button) : Window :=
  { w with button := Function.update w.button c b }

def enable (w : Window) (c : Control) : Window := w.setButton c (w.button c).enable

def disable (w : Window) (c : Control) : Window := w.setButton c (w.button c).disable

/-- What `main` sets up in front of the loop. -/
def create : Window :=
  disable ⟨.scanning, fun _ => .create, fun b => .create b.sizeLimit true⟩ .mainTab

/-- The statement `AmplifyRed` submits. -/
def amplifyRedStatement (matchId : List Byte) : List Byte :=
  bytes "insert into matchtransaction ( MatchId, ScouterID, DataPointID,  DCValue, TeamID,AllianceID) values (" ++
    matchId ++ bytes ",-1,11,'true', -1, 'Red');"

/-- One of the statements the button `DB` submits. -/
def fillStatement (i j team : Nat) (alliance : String) : List Byte :=
  bytes "insert into matchtransaction ( MatchId, ScouterID, DatapointID,  DCValue, TeamID, AllianceID) values (" ++
    decimal i ++ bytes "," ++ decimal (-1) ++ bytes "," ++ decimal j ++ bytes ",'" ++
    bytes "event" ++ bytes "'," ++ decimal team ++ bytes ",'" ++ bytes alliance ++ bytes "');"

/-- One of the statements that fill the table of matches. -/
def matchStatement (i : Nat) (kind : String) : List Byte :=
  bytes "insert into scmatch ( MatchId, BAmatchId, Description) values (" ++ decimal i ++
    bytes ",'" ++ bytes kind ++ bytes "','" ++ bytes kind ++ bytes "');"

/-- The statement `submit` submits. -/
def selectStatement (teamId matchId : List Byte) : List Byte :=
  bytes "select * from matchtransaction where TeamId =" ++ teamId ++ bytes " && MatchId = " ++
    matchId ++ bytes ";"

/-- The nested loops of the button `DB`. -/
def fillTasks : List Task :=
  (List.range' 1 6).flatMap fun i => (List.range' 1 45).flatMap fun j =>
    [(1, "1"), (4, "1"), (5, "1"), (6, "0"), (7, "0"), (8, "0")].map fun (team, alliance) =>
      .execQuery (fillStatement i j team alliance) 0

/-- The three loops of `tournamentSubmit`. -/
def matchTasks : List Task :=
  ((List.range' 0 100).map fun i => .execQuery (matchStatement i "Practice") 0) ++
    ((List.range' 100 100).map fun j => .execQuery (matchStatement j "Qual") 0) ++
      (List.range' 200 50).map fun k => .execQuery (matchStatement k "Playoff") 0

/-- The body of the `if` of a button, as far as it leaves the window. -/
def tasks (w : Window) : Control → List Task
  | .amplifyBlue =>
      [.execQuery (bytes "insert into matchtransaction ( MatchId, ScouterID, DataPointID,  DCValue, TeamID,AllianceID) values ( 4,-1,11,'true', -1, 'Blue');") 0,
        .toast "Amplify Blue Started"]
  | .amplifyRed =>
      [.execQuery (amplifyRedStatement (w.box .matchBoxMain).getText) 0,
        .toast "Amplify Red Started"]
  | .rest => .deleteteams :: (List.range 23).map .getteamdata
  | .db => fillTasks
  | .tournamentSubmit => .getteamsatcomphdata (w.box .tournamentMatch).getText :: matchTasks
  | .scouterUpdate => [.scouterUpdate]
  | .submit =>
      [.execQuery (selectStatement (w.box .teamBox).getText (w.box .matchBox).getText) 8]
  | .disconnectAllTabs => [.killAllSockets]
  | .pongreset => [.pongReset]
  | _ => []

/-- The body of the `if` of a button, as far as it changes the window. -/
def navigate (w : Window) : Control → Window
  | .mainTab =>
      ((({ w with currentScene := .scanning }.disable .mainTab).enable .databaseTab).enable
        .bluetoothTab)
  | .databaseTab =>
      ((({ w with currentScene := .database }.enable .mainTab).disable .databaseTab).enable
        .bluetoothTab)
  | .bluetoothTab =>
      ((({ w with currentScene := .bluetooth }.enable .mainTab).enable .databaseTab).disable
        .bluetoothTab)
  | .pong => { w with currentScene := .pong }
  | .pongback =>
      ((({ w with currentScene := .bluetooth }.enable .mainTab).enable .databaseTab).disable
        .bluetoothTab)
  | _ => w

/-- `c.isPressed()`. -/
def poll (w : Window) (input : Input) (c : Control) : Bool × Window :=
  let r := (w.button c).isPressed (input.clickState c)
  (r.1, w.setButton c r.2)

/-- `if (c.isPressed()) { … } else if …` -/
def pollFirst (input : Input) : List Control → Window → Window × List Event
  | [], w => (w, [])
  | c :: cs, w =>
      let r := w.poll input c
      if r.1 then (r.2.navigate c, [.pressed c (r.2.tasks c)]) else pollFirst input cs r.2

/-- `if (c.isPressed()) { … }` for one button after the other. -/
def pollAll (input : Input) : List Control → Window → Window × List Event
  | [], w => (w, [])
  | c :: cs, w =>
      let r := w.poll input c
      if r.1 then
        let rest := pollAll input cs (r.2.navigate c)
        (rest.1, .pressed c (r.2.tasks c) :: rest.2)
      else pollAll input cs r.2

/-- `updateText` of the boxes that are drawn. -/
def type (input : Input) : List Box → Window → Window
  | [], w => w
  | b :: bs, w =>
      type input bs { w with box := Function.update w.box b ((w.box b).updateText (input.typing b)) }

/-- The tabs, in the order they are polled. -/
def tabs : List Control := [.mainTab, .databaseTab, .bluetoothTab]

/-- The buttons a scene polls, in order. -/
def controls : Scene → List Control
  | .scanning => [.amplifyBlue, .amplifyRed]
  | .database => [.rest, .db, .tournamentSubmit, .scouterUpdate, .submit]
  | .bluetooth => [.disconnectAllTabs, .pong]
  | .pong => [.pongback, .pongreset]

/-- The boxes a scene draws, in order. -/
def boxes : Scene → List Box
  | .scanning => [.matchBoxMain]
  | .database => [.teamBox, .matchBox, .tournamentMatch]
  | .bluetooth => []
  | .pong => []

/-- What `case PONG` does in front of its buttons. -/
def enter (w : Window) : Scene → Window × List Event
  | .pong => (((w.disable .mainTab).disable .databaseTab).disable .bluetoothTab, [.pongUpdate])
  | _ => (w, [])

/-- The `switch`. -/
def play (w : Window) (input : Input) : Window × List Event :=
  let entered := w.enter w.currentScene
  let polled := pollAll input (controls w.currentScene) entered.1
  (type input (boxes w.currentScene) polled.1, entered.2 ++ polled.2)

/-- The body of the loop. -/
def frame (w : Window) (input : Input) : Window × List Event :=
  let chosen := pollFirst input tabs w
  let played := chosen.1.play input
  (played.1, chosen.2 ++ .updateAllBt :: played.2)

/-- The frames of a run, each with what it does. -/
def run : Window → List Input → Window × List (List Event)
  | w, [] => (w, [])
  | w, input :: inputs =>
      let now := w.frame input
      let later := run now.1 inputs
      (later.1, now.2 :: later.2)

end Window

end ScoutComputer
