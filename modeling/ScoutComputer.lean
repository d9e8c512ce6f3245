import ScoutComputer.Lib.Steps
import ScoutComputer.Lib.Lists
import ScoutComputer.Lib.Endless
import ScoutComputer.Bluetooth.Transfer
import ScoutComputer.Bluetooth.TransferProof
import ScoutComputer.Lib.SqlText
import ScoutComputer.Lib.SqlTextProof
import ScoutComputer.Lib.Words
import ScoutComputer.Lib.Separated
import ScoutComputer.Data.Decimal
import ScoutComputer.Data.Json
import ScoutComputer.Data.JsonParser
import ScoutComputer.Data.Database
import ScoutComputer.Data.InsertMatchProof
import ScoutComputer.Data.InsertTeamProof
import ScoutComputer.Data.Connection
import ScoutComputer.Data.ConnectionProof
import ScoutComputer.Data.RestReqHandler
import ScoutComputer.Data.RefreshProof
import ScoutComputer.Data.MurmurHash
import ScoutComputer.Data.MurmurHashProof
import ScoutComputer.Bluetooth.Conductor
import ScoutComputer.Bluetooth.ConductorProof
import ScoutComputer.Bluetooth.IngestProof
import ScoutComputer.Bluetooth.LocalDbProof
import ScoutComputer.Bluetooth.Server
import ScoutComputer.Bluetooth.ServerProof
import ScoutComputer.Bluetooth.ServerRun
import ScoutComputer.Bluetooth.SlotProof
import ScoutComputer.Bluetooth.FutureProof
import ScoutComputer.Bluetooth.QueueProof
import ScoutComputer.Bluetooth.PolicyProof
import ScoutComputer.Bluetooth.HangProof
import ScoutComputer.Bluetooth.WriteProof
import ScoutComputer.Lib.EraseLoop
import ScoutComputer.Bluetooth.TableProof
import ScoutComputer.Bluetooth.HistoryProof
import ScoutComputer.Bluetooth.CloseProof
import ScoutComputer.Bluetooth.PassProof
import ScoutComputer.Bluetooth.QueuePassProof
import ScoutComputer.Bluetooth.PairProof
import ScoutComputer.Bluetooth.Conversation
import ScoutComputer.Bluetooth.ViewProof
import ScoutComputer.Bluetooth.PollProof
import ScoutComputer.Bluetooth.LineProof
import ScoutComputer.Bluetooth.FrameProof
import ScoutComputer.Lib.LongestPrefix
import ScoutComputer.Data.JsonReaders
import ScoutComputer.Ui.Toast
import ScoutComputer.Ui.ToastProof
import ScoutComputer.Lib.Truncation
import ScoutComputer.Lib.Placement
import ScoutComputer.Ui.Layout
import ScoutComputer.Ui.EmptyProof
import ScoutComputer.Ui.DrawableListProof
import ScoutComputer.Ui.SizeScaling
import ScoutComputer.Ui.SizeScalingProof
import ScoutComputer.Lib.Resample
import ScoutComputer.Ui.QrCodeHandler
import ScoutComputer.Ui.QrCodeHandlerProof
import ScoutComputer.Lib.Terminated
import ScoutComputer.Ui.TextBox
import ScoutComputer.Ui.TextBoxProof
import ScoutComputer.Lib.HexPairs
import ScoutComputer.Bluetooth.MacStr
import ScoutComputer.Bluetooth.MacStrProof
import ScoutComputer.Bluetooth.ExchangeProof
import ScoutComputer.Bluetooth.DeedProof
import ScoutComputer.Bluetooth.SessionProof
import ScoutComputer.Bluetooth.DeliveryProof
import ScoutComputer.Bluetooth.AccountProof
import ScoutComputer.Lib.Relocation
import ScoutComputer.Bluetooth.NameList
import ScoutComputer.Bluetooth.CrashProof
import ScoutComputer.Bluetooth.ReturnProof
import ScoutComputer.Bluetooth.ProgressProof
import ScoutComputer.Bluetooth.OnceProof
import ScoutComputer.Data.MatchListProof
import ScoutComputer.Ui.Main
import ScoutComputer.Ui.MainProof
import ScoutComputer.Ui.SubmitProof
import ScoutComputer.Ui.TabHandler
import ScoutComputer.Ui.ToastText
