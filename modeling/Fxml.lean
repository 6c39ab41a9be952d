import Fxml.Main
import Fxml.Proofs.Cli.Arguments
import Fxml.Proofs.Code.Constants
import Fxml.Proofs.Code.Imports
import Fxml.Proofs.Code.ReadOrder
import Fxml.Proofs.Code.TypeReference
import Fxml.Proofs.Compile.Completion
import Fxml.Proofs.Compile.OutputFiles
import Fxml.Proofs.Document.TextPlaces
import Fxml.Proofs.Expr.Lexing
import Fxml.Proofs.Graph.InsertionOrder
import Fxml.Proofs.Live.Coercion
import Fxml.Proofs.Markup.AttributePlaces
import Fxml.Proofs.Naming.FreshNames
import Fxml.Proofs.Planning.TagOrder
import Fxml.Proofs.Text.ResourceLines
import Fxml.Proofs.Types.Assignability
import Fxml.Proofs.Types.ImportOrder
import Fxml.Proofs.Types.Members
