import Ensicoin.Library.PrefixCodes
import Ensicoin.Script
import Ensicoin.ScriptRuns
import Ensicoin.ScriptVerdicts
import Ensicoin.ScriptTermination
import Ensicoin.Messages
import Ensicoin.TransactionWire
import Ensicoin.MessageWire
import Ensicoin.ValueConservation
import Ensicoin.MempoolAdmission
import Ensicoin.Handshake
import Ensicoin.Framing
import Ensicoin.TransactionCodes
import Ensicoin.BlockHash
import Ensicoin.MessageStream
import Ensicoin.PayToHash
import Ensicoin.DataPushes
import Ensicoin.ScriptObjects
import Ensicoin.OrphanIndex
import Ensicoin.InvAnswer
import Ensicoin.DecodedValues
import Ensicoin.MessageOrder
import Ensicoin.HonestHandshake
import Ensicoin.SigningMessages
import Ensicoin.SpentScripts
import Ensicoin.RepeatedValidation
import Ensicoin.OutputRegistration
import Ensicoin.ConnectionTables
import Ensicoin.VersionNegotiation
import Ensicoin.LinkedOutputs
import Ensicoin.ExactVarUints
import Ensicoin.StringReads
import Ensicoin.IdentifiedBytes
import Ensicoin.CarriedArrays
import Ensicoin.HeaderDispatch
import Ensicoin.CheckedSizes
import Ensicoin.CompactTargets
import Ensicoin.PublicKeys
import Ensicoin.DifficultyWindow
import Ensicoin.FixedIntegers
import Ensicoin.ScriptContexts
import Ensicoin.StackItems
import Ensicoin.AnsweredInvs
import Ensicoin.HonestDeliveries
import Ensicoin.StreamedProgress
import Ensicoin.TerminatedMemory
import Ensicoin.SurvivedHeaders
import Ensicoin.AnnouncedKinds
import Ensicoin.SeparateRemotes
import Ensicoin.HonestNetwork
